import Downlevel.Lowering.Basic

/-!
# Block-scoped declarations

`let` and `const` become `var`. A declaration in a block that is no function body is visible outside
of that block from then on, and a warning says so.
-/

namespace Downlevel.Lowering

/-- The kind of diagnostic for a declaration whose scope grows. -/
def blockScopeHoisted : String := "block-scope-hoisted"

/-- The declared names, as a message lists them. -/
def declaredNames (s : Store) (declarators : List NodeId) : String :=
  ", ".intercalate (declarators.filterMap fun id =>
    match s.kind id with
    | .declarator name _ => some ("`" ++ name ++ "`")
    | _ => none)

/-- Whether, of the ancestors of a declaration, nearest first, the nearest that holds statements is
neither the program nor the body of a function. -/
def inBlock (m : Module) : List NodeId → Bool
  | [] => false
  | a :: as =>
    match m.tree.kind a with
    | .program _ | .functionDeclaration .. | .functionExpression .. | .arrowFunction .. => false
    | .block _ => !((m.parent? a).any fun parent => (m.tree.kind parent).isFunction)
    | .ifStatement .. | .whileStatement .. => true
    | _ => inBlock m as

/-- Reports a declaration that leaves its block. -/
def warnHoisted (m : Module) (id : NodeId) (keyword : DeclKind) (declarators : List NodeId) :
    Draft :=
  if inBlock m (m.ancestors id) then
    let names := declaredNames m.tree declarators
    (m.toDraft.logEvent (.declarationHoisted keyword.keyword names)).warn id blockScopeHoisted
      ("`" ++ keyword.keyword ++ "` declaration of " ++ names ++ " is hoisted out of its block")
  else m.toDraft

def blockScope : Plugin where
  name := "declarations.block-scope"
  description := "Rewrite `let` and `const` as `var`, warning when a declaration leaves its block"
  Context := Unit
  initial := ()
  enter id m cx :=
    match m.tree.kind id with
    | .declaration .var _ => (.ok .proceed, m.toDraft, cx)
    | .declaration keyword declarators =>
      (.ok .proceed,
        (warnHoisted m id keyword declarators).edit (·.replace id (.declaration .var declarators)),
        cx)
    | _ => (.ok .proceed, m.toDraft, cx)

end Downlevel.Lowering
