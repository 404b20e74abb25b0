import Downlevel.Lowering.Basic

/-!
# Arrow functions

`(a) => e` becomes `function (a) { return e; }`. An arrow function that uses the surrounding `this`,
itself or through arrow functions inside it, is bound to it: `function (a) { … }.bind(this)`.
-/

namespace Downlevel.Lowering

open Store (alloc)

/-- Of the ancestors of a `this`, nearest first, the arrow functions it passes through: those below
the nearest other function. -/
def arrowsAround (s : Store) : List NodeId → List NodeId
  | [] => []
  | a :: as =>
    match s.kind a with
    | .arrowFunction .. => a :: arrowsAround s as
    | k => if k.isFunction then [] else arrowsAround s as

/-- Lowers an arrow function whose parts have been lowered already. -/
def lowerArrow (bound : List NodeId) (id : NodeId) : StateM Store Unit := do
  let s ← get
  match s.kind id with
  | .arrowFunction params body =>
    let span := s.span id
    let body ← ensureBlock body
    let function := .functionExpression none params body
    if bound.contains id then
      let function ← alloc function span
      let callee ← member function "bind" span
      let this ← alloc .this span
      replace id (.call callee [this])
    else replace id function
  | _ => return

/-- The context holds the arrow functions found to use the surrounding `this`. -/
def arrows : Plugin where
  name := "functions.arrow"
  description := "Rewrite arrow functions as function expressions, binding `this` where used"
  Context := List NodeId
  initial := []
  enter id m bound :=
    match m.tree.kind id with
    | .this => (.ok .proceed, m.toDraft, arrowsAround m.tree (m.ancestors id) ++ bound)
    | _ => (.ok .proceed, m.toDraft, bound)
  leave id m bound := hook (lowerArrow bound) id m bound

end Downlevel.Lowering
