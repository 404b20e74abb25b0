import Downlevel.Proofs.Appending
import Downlevel.Proofs.Unfolding

/-!
# Printing the nodes of a store

Whatever the printer is asked for in a store, it adds to the output what it adds to an empty one, with
the same warnings, and leaves the indentation as it was. So parentheses that are put in afterwards stand
right around the text of an expression: around one that would be read as another statement
(`Store.text_writeStatement`), and around the body of an arrow function that would be read as a block
(`Store.text_writeArrow`).
-/

namespace Downlevel

open Output (Appends blank)

/-- What the printer can be asked for. -/
inductive Request where
  | statement (id : NodeId)
  | expression (id : NodeId) (min : Nat)
  | declarator (id : NodeId)
  | property (id : NodeId)
  | params (ids : List NodeId)
  | block (ids : List NodeId)
  | braced (id : NodeId)

/-- The text of an expression, in parentheses if it binds less strongly than `min`. -/
def grouped (precedence min : Nat) (text : List Char) : List Char :=
  if precedence < min then '(' :: (text ++ [')']) else text

namespace Tree

theorem write_expression {a : Span} {k : Kind (Tree Span)} (h : k.category = .expression) (min : Nat)
    (out : Output) :
    (node a k).write (.expression min) out = out.groupIf (k.precedence < min) (writeOwn a k) := by
  simp only [write, Role.place, h]

/-- No expression binds less strongly than an assignment. -/
theorem write_expression_assign {a : Span} {k : Kind (Tree Span)} (h : k.category = .expression) :
    (node a k).write (.expression Precedence.assign) = writeOwn a k := by
  have hle : Precedence.assign ≤ k.precedence := by
    cases k with
    | binary op => cases op <;> exact Nat.le_of_ble_eq_true rfl
    | _ => exact Nat.le_of_ble_eq_true rfl
  funext out
  rw [write_expression h, Output.groupIf, decide_eq_false hle.not_gt]
  rfl

end Tree

namespace Store

variable {s : Store} {id : NodeId}

/-- Prints what is asked for. -/
def write (s : Store) : Request → Output → Output
  | .statement id => (s.below id).write .statement
  | .expression id min => (s.below id).write (.expression min)
  | .declarator id => (s.below id).write .declarator
  | .property id => (s.below id).write .property
  | .params ids => Tree.writeParams (ids.map s.below)
  | .block ids => Tree.writeBlock (ids.map s.below)
  | .braced id => Tree.writeBraced (s.below id)

theorem appends_write (s : Store) (r : Request) : Appends (s.write r) := by
  cases r with
  | statement id | expression id | declarator id | property id => exact (s.below id).appends_write _
  | params ids => exact Tree.appends_writeParams fun t _ => t.appends_write
  | block ids => exact Tree.appends_writeBlock fun t _ => t.appends_write
  | braced id => exact Tree.appends_writeBraced (s.below id).appends_write

/-- The text that the printer adds at an indentation, if it is asked for something. -/
def textOf (s : Store) (indent : Nat) (r : Request) : List Char :=
  (s.write r (blank indent)).text

theorem text_write (s : Store) (r : Request) (out : Output) :
    (s.write r out).text = out.text ++ s.textOf out.indent r :=
  (s.appends_write r).text out

/-! ## Parentheses that are put in afterwards -/

/-- A node is an expression that stands as a statement: one that holds it, or the expression itself. -/
def StandsAs (s : Store) (id e : NodeId) : Prop :=
  s.kind id = .expressionStatement e ∨ (s.kind id).category = .expression ∧ e = id

theorem write_statement (hs : s.Acyclic) (hid : id < s.size) {e : NodeId} (he : s.StandsAs id e)
    (out : Output) :
    s.write (.statement id) out = out.writeAsStatement (s.write (.expression e Precedence.assign)) := by
  rcases he with hkind | ⟨hcategory, rfl⟩
  · rw [write, hs.below_eq hid, hkind]
    rfl
  · have hmap : ((s.kind e).map s.below).category = .expression := by rwa [Kind.category_map]
    rw [write, write, hs.below_eq hid, Tree.write_expression_assign hmap]
    simp only [Tree.write, Role.place, hmap]

/-- An expression that stands as a statement is its own text, in parentheses if it would be read as
another statement. -/
theorem text_writeStatement (hs : s.Acyclic) (hid : id < s.size) {e : NodeId} (he : s.StandsAs id e)
    (out : Output) :
    (s.write (.statement id) out).text = out.text ++ (parenthesized readsAsStatement
      (s.textOf out.indent (.expression e Precedence.assign)) ++ [';']) := by
  rw [write_statement hs hid he, Output.writeAsStatement, Output.text_write,
    Output.text_parenthesizeIf out (s.text_write _ out)]
  simp

/-- The body of an arrow function is its own text, in parentheses if it would be read as a block. -/
theorem text_writeArrow (hs : s.Acyclic) (hid : id < s.size) {params : List NodeId} {body : NodeId}
    (hkind : s.kind id = .arrowFunction params body) (hbody : (s.kind body).isBlock = false)
    (min : Nat) (out : Output) :
    (s.write (.expression id min) out).text = out.text ++
      grouped Precedence.assign min (s.textOf out.indent (.params params) ++ " => ".toList ++
        parenthesized startsWithBrace (s.textOf out.indent (.expression body Precedence.assign))) := by
  have hblock : (s.below body).kind.isBlock = false := by
    rw [below, unfold, Tree.kind_node, Kind.isBlock_map, hbody]
  have hown : ∀ before : Output, before.indent = out.indent →
      (Tree.writeOwn (s.span id) (.arrowFunction (params.map s.below) (s.below body)) before).text
        = before.text ++ (s.textOf out.indent (.params params) ++ " => ".toList ++
          parenthesized startsWithBrace (s.textOf out.indent (.expression body Precedence.assign))) := by
    intro before hindent
    have hparams : (Tree.writeParams (params.map s.below) before).text
        = before.text ++ s.textOf out.indent (.params params) :=
      hindent ▸ s.text_write (.params params) before
    rw [Tree.writeOwn_arrowFunction hblock]
    refine (Output.text_parenthesizeIf _ (s.text_write (.expression body Precedence.assign) _)).trans ?_
    rw [Output.text_write, hparams, Output.indent_write, Tree.indent_writeParams, hindent]
    simp
  rw [write, hs.below_eq hid, hkind, Tree.write_expression rfl]
  refine (Output.text_groupIf hown _).trans ?_
  simp only [grouped, decide_eq_true_eq]
  rfl

end Store

/-- What the printer adds to an output, be it text or warnings, is what it adds to an empty one at the
same indentation, and that stays as it was. Parentheses that are put in afterwards stand right around the
text of the expression that they are for. -/
theorem printing_adds (s : Store) (hs : s.Acyclic) :
    (∀ (r : Request) (out : Output),
      (s.write r out).text = out.text ++ (s.write r (blank out.indent)).text ∧
      (s.write r out).warnings = out.warnings ++ (s.write r (blank out.indent)).warnings ∧
      (s.write r out).indent = out.indent) ∧
    (∀ id < s.size, ∀ e, s.StandsAs id e → ∀ out : Output,
      (s.write (.statement id) out).text = out.text ++ (parenthesized readsAsStatement
        (s.write (.expression e Precedence.assign) (blank out.indent)).text ++ [';'])) ∧
    (∀ id < s.size, ∀ params body, s.kind id = .arrowFunction params body →
      (s.kind body).isBlock = false → ∀ (min : Nat) (out : Output),
      (s.write (.expression id min) out).text = out.text ++ grouped Precedence.assign min
        ((s.write (.params params) (blank out.indent)).text ++ " => ".toList ++
          parenthesized startsWithBrace
            (s.write (.expression body Precedence.assign) (blank out.indent)).text)) := by
  refine ⟨fun r out => ?_, fun id hid e he out => ?_, fun id hid params body hkind hbody min out => ?_⟩
  · have h := s.appends_write r
    exact ⟨h.text out, h.warnings out, h.indent out⟩
  · exact Store.text_writeStatement hs hid he out
  · exact Store.text_writeArrow hs hid hkind hbody min out

/-- A call of a function, in which an object with an arrow function in it stands as a statement. -/
def nestedStatements : Store :=
  ⟨#[⟨.expressionStatement 1, {}⟩, ⟨.call 2 [], {}⟩, ⟨.functionExpression none [] 3, {}⟩, ⟨.block [4], {}⟩,
    ⟨.object [5], {}⟩, ⟨.property (.identifier "a") 6 false false, {}⟩, ⟨.arrowFunction [7] 8, {}⟩,
    ⟨.param "x" none false, {}⟩, ⟨.object [], {}⟩], 0⟩

/-- A line of text, with a character of two bytes. -/
def lineBefore : Output :=
  { reversed := ['\n', 'é'], indent := 1, warnings := [⟨"seen", "earlier", 1, 0⟩] }

theorem printing_adds_nested :
    nestedStatements.Acyclic ∧
      (nestedStatements.write (.statement 0) lineBefore).text =
        "é\n(function () \x7b\n    (\x7b a: (x) => (\x7b\x7d) \x7d);\n  \x7d());".toList ∧
      (nestedStatements.write (.statement 0) lineBefore).warnings = lineBefore.warnings ∧
      (nestedStatements.write (.statement 0) lineBefore).indent = 1 ∧
      (nestedStatements.write (.statement 4) lineBefore).text =
        "é\n(\x7b a: (x) => (\x7b\x7d) \x7d);".toList ∧
      (nestedStatements.write (.expression 6 2) lineBefore).text = "é\n((x) => (\x7b\x7d))".toList := by
  have hs : nestedStatements.Acyclic := .of_lt (by decide +kernel)
  obtain ⟨hall, hstatement, harrow⟩ := printing_adds nestedStatements hs
  obtain ⟨-, hwarnings, hindent⟩ := hall (.statement 0) lineBefore
  refine ⟨hs, (hstatement 0 (by decide) 1 (.inl rfl) _).trans (by decide +kernel),
    hwarnings.trans (by decide +kernel), hindent,
    (hstatement 4 (by decide) 4 (.inr ⟨rfl, rfl⟩) _).trans (by decide +kernel),
    (harrow 6 (by decide) [7] 8 rfl rfl 2 _).trans (by decide +kernel)⟩

end Downlevel
