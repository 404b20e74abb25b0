import Downlevel.Lowering.Basic

/-!
# Parameters

A default `function f(p = d) {}` becomes a check at the top of the body,
`if (p == null) { p = d; }`. A rest parameter `function f(a, ...rest) {}` becomes a declaration,
`var rest = Array.prototype.slice.call(arguments, 1);`. Both happen before the body is walked, so
that what has moved there is walked with it. An arrow function has no `arguments` of its own and
keeps its rest parameter.
-/

namespace Downlevel.Lowering

open Store (alloc)

/-- `if (name == null) { name = fallback; }` -/
def nullCheck (name : String) (fallback : NodeId) (span : Span) : StateM Store NodeId := do
  let left ← identifier name span
  let right ← alloc .null span
  let test ← alloc (.binary .equal left right) span
  let target ← identifier name span
  let assign ← alloc (.assign target fallback) span
  let statement ← alloc (.expressionStatement assign) span
  let consequent ← alloc (.block [statement]) span
  alloc (.ifStatement test consequent none) span

/-- Takes the defaults off parameters and returns the checks that stand for them. -/
def takeDefaults : List NodeId → StateM Store (List NodeId)
  | [] => return []
  | param :: params => do
    let s ← get
    match s.kind param with
    | .param name (some fallback) rest =>
      replace param (.param name none rest)
      let check ← nullCheck name fallback (s.span param)
      return check :: (← takeDefaults params)
    | _ => takeDefaults params

def lowerDefaults (id : NodeId) : StateM Store Unit := do
  match ((← get).kind id).signature? with
  | none => return
  | some (params, _) =>
    match ← takeDefaults params with
    | [] => return
    | checks => prependToBody id checks

def defaultParams : Plugin where
  name := "functions.default-params"
  description := "Replace parameter defaults with `== null` checks at the top of the body"
  Context := Unit
  initial := ()
  enter := hook lowerDefaults

/-- `var name = Array.prototype.slice.call(arguments, index);` -/
def sliceArguments (name : String) (index : Nat) (span : Span) : StateM Store NodeId := do
  let array ← identifier "Array" span
  let prototype ← member array "prototype" span
  let slice ← member prototype "slice" span
  let callee ← member slice "call" span
  let arguments ← identifier "arguments" span
  let start ← alloc (.number (toString index)) span
  let init ← alloc (.call callee [arguments, start]) span
  let declarator ← alloc (.declarator name (some init)) span
  alloc (.declaration .var [declarator]) span

/-- The name of a rest parameter. -/
def restName? : Kind NodeId → Option String
  | .param name _ true => some name
  | _ => none

def lowerRest (id : NodeId) : StateM Store Unit := do
  let s ← get
  match s.kind id with
  | .arrowFunction .. => return
  | kind =>
    match kind.signature? with
    | none => return
    | some (params, _) =>
      match params.getLast? with
      | none => return
      | some last =>
        match restName? (s.kind last) with
        | none => return
        | some name =>
          let params := params.dropLast
          replace id (kind.withParams params)
          let declaration ← sliceArguments name params.length (s.span last)
          prependToBody id [declaration]

def restParams : Plugin where
  name := "functions.rest-params"
  description := "Replace a rest parameter with a slice of `arguments`"
  Context := Unit
  initial := ()
  enter := hook lowerRest

end Downlevel.Lowering
