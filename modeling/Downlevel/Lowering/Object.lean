import Downlevel.Lowering.Basic

/-!
# Object literals

A concise method `m() { … }` becomes `m: function () { … }`, and a shorthand property `a` becomes
`a: a`. In both cases the value is there already, and only the mark on the property goes.
-/

namespace Downlevel.Lowering

def lowerConcise (id : NodeId) (s : Store) : Store :=
  match s.kind id with
  | .property key value shorthand _ => s.replace id (.property key value shorthand false)
  | _ => s

def conciseMethods : Plugin where
  name := "objects.concise"
  description := "Expand concise object methods into function-valued properties"
  Context := Unit
  initial := ()
  enter := Hook.edit lowerConcise

def lowerShorthand (id : NodeId) (s : Store) : Store :=
  match s.kind id with
  | .property key value _ method => s.replace id (.property key value false method)
  | _ => s

def shorthandProperties : Plugin where
  name := "objects.shorthand"
  description := "Spell out shorthand object properties"
  Context := Unit
  initial := ()
  enter := Hook.edit lowerShorthand

end Downlevel.Lowering
