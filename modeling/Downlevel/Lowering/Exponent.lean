import Downlevel.Lowering.Basic

/-!
# The power operator

`a ** b` becomes `Math.pow(a, b)`.
-/

namespace Downlevel.Lowering

def lowerPower (id : NodeId) : StateM Store Unit := do
  let s ← get
  match s.kind id with
  | .binary .power left right =>
    let span := s.span id
    let math ← identifier "Math" span
    let callee ← member math "pow" span
    replace id (.call callee [left, right])
  | _ => return

def exponentOperator : Plugin where
  name := "operators.exponent"
  description := "Rewrite `**` as a `Math.pow` call"
  Context := Unit
  initial := ()
  leave := hook lowerPower

end Downlevel.Lowering
