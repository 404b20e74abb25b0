import Downlevel.Printer.Write
import Downlevel.Proofs.Tree

/-!
# Printing only adds

`Output.Appends f` says that printing with `f` adds to any output what it adds to an empty one at the
same indentation: the text and the warnings that are added do not depend on what was printed before, and
the indentation is the same afterwards. What is put together from such printers is one again, also where
parentheses are put in at a place that was noted before printing (`Appends.parenthesizeIf`). So every
tree is printed like this, in every role (`Tree.appends_write`).
-/

namespace Downlevel

@[simp] theorem Separator.text_comma (indent : Nat) : comma.text indent = ", ".toList := rfl

@[simp] theorem Separator.text_line (indent : Nat) : line.text indent = lineBreak indent := rfl

namespace Output

/-! ## Outputs one after another -/

/-- An output with nothing printed yet. -/
def blank (indent : Nat) : Output :=
  { indent }

/-- An output, and behind it what was printed on another one at the same indentation. -/
def append (out more : Output) : Output where
  reversed := more.reversed ++ out.reversed
  indent := out.indent
  warnings := out.warnings ++ more.warnings

@[simp] theorem indent_append (out more : Output) : (out.append more).indent = out.indent := rfl

theorem append_assoc (out more still : Output) :
    (out.append more).append still = out.append (more.append still) := by
  simp [append]

@[simp] theorem text_append (out more : Output) : (out.append more).text = out.text ++ more.text := by
  simp [text, append]

@[simp] theorem text_writeChars (out : Output) (cs : List Char) :
    (out.writeChars cs).text = out.text ++ cs := by
  simp [text, writeChars, List.reverseAux_eq]

@[simp] theorem text_write (out : Output) (s : String) : (out.write s).text = out.text ++ s.toList :=
  out.text_writeChars s.toList

@[simp] theorem text_separate (out : Output) (sep : Separator) :
    (out.separate sep).text = out.text ++ sep.text out.indent :=
  out.text_writeChars _

@[simp] theorem text_between (out : Output) (left right : String) (f : Output → Output) :
    (out.between left right f).text = (f (out.write left)).text ++ right.toList :=
  text_write _ right

@[simp] theorem text_misfit (out : Output) (span : Span) (m : Misfit) :
    (out.misfit span m).text = out.text := rfl

@[simp] theorem indent_write (out : Output) (s : String) : (out.write s).indent = out.indent := rfl

@[simp] theorem indent_separate (out : Output) (sep : Separator) :
    (out.separate sep).indent = out.indent := rfl

@[simp] theorem indent_between (out : Output) (left right : String) (f : Output → Output) :
    (out.between left right f).indent = (f (out.write left)).indent := rfl

/-! ## Going back -/

private theorem foldl_utf8Size (n : Nat) (cs : List Char) :
    cs.foldl (fun n c => n + c.utf8Size) n = n + cs.foldl (fun n c => n + c.utf8Size) 0 := by
  induction cs generalizing n with
  | nil => rfl
  | cons c cs ih =>
    rw [List.foldl_cons, List.foldl_cons, ih, ih (0 + _), Nat.zero_add, Nat.add_assoc]

/-- A cut as many bytes before the end as the last characters take stands right before them. -/
private theorem cutBack_append (last later earlier : List Char) :
    cutBack (last.foldl (fun n c => n + c.utf8Size) 0) later (last ++ earlier)
      = (last.reverseAux later, earlier) := by
  induction last generalizing later with
  | nil => cases earlier <;> rfl
  | cons c last ih =>
    have hpos := c.utf8Size_pos
    rw [List.foldl_cons, foldl_utf8Size, Nat.zero_add, List.cons_append, cutBack,
      Nat.add_sub_cancel_left, ih, List.reverseAux]
    omega

variable {out printed : Output} {piece : List Char}

theorem cutBack_of_text (h : printed.text = out.text ++ piece) :
    cutBack (printed.size - out.size) [] printed.reversed = (piece, out.reversed) := by
  have hreversed : printed.reversed = piece.reverse ++ out.reversed := by
    have := congrArg List.reverse h
    simpa [text] using this
  rw [size, size, hreversed, List.foldl_append, foldl_utf8Size, Nat.add_sub_cancel, cutBack_append]
  simp [List.reverseAux_eq]

/-- What has been printed since an earlier size is what was added to the text. -/
theorem since_eq (h : printed.text = out.text ++ piece) : printed.since out.size = piece := by
  rw [since, cutBack_of_text h]

/-- A character is put in right before what was added to the text. -/
theorem text_insert (h : printed.text = out.text ++ piece) (c : Char) :
    (printed.insert out.size c).text = out.text ++ c :: piece := by
  simp [insert, cutBack_of_text h, text, List.reverseAux_eq]

theorem since_append (out more : Output) : (out.append more).since out.size = more.text :=
  since_eq (text_append out more)

theorem since_blank (indent : Nat) (more : Output) : more.since (blank indent).size = more.text :=
  since_eq rfl

theorem insert_append (out more : Output) (indent : Nat) (c : Char) :
    (out.append more).insert out.size c = out.append (more.insert (blank indent).size c) := by
  have hmore : more.text = (blank indent).text ++ more.text := rfl
  rw [insert, insert, cutBack_of_text (text_append out more), cutBack_of_text hmore]
  simp [append, blank, List.reverseAux_eq]

end Output

/-- The text, in parentheses if it satisfies `p`. -/
def parenthesized (p : List Char → Bool) (text : List Char) : List Char :=
  if p text then '(' :: (text ++ [')']) else text

namespace Output

theorem text_parenthesizeIf {p : List Char → Bool} {f : Output → Output} {piece : List Char}
    (out : Output) (hf : (f out).text = out.text ++ piece) :
    (out.parenthesizeIf p f).text = out.text ++ parenthesized p piece := by
  simp only [parenthesizeIf, since_eq hf, parenthesized]
  split
  · simp [text_insert hf]
  · exact hf

/-! ## Printers that only add -/

/-- Printing with `f` adds what it adds to an empty output at the same indentation. -/
def Appends (f : Output → Output) : Prop :=
  ∀ out, f out = out.append (f (blank out.indent))

namespace Appends

variable {f g : Output → Output}

theorem text (h : Appends f) (out : Output) :
    (f out).text = out.text ++ (f (blank out.indent)).text := by
  rw [h out, text_append]

theorem warnings (h : Appends f) (out : Output) :
    (f out).warnings = out.warnings ++ (f (blank out.indent)).warnings := by
  rw [h out]
  rfl

theorem indent (h : Appends f) (out : Output) : (f out).indent = out.indent := by
  rw [h out]
  rfl

/-- What stands before an output stays where it is. -/
theorem append (h : Appends f) {out more : Output} (hindent : more.indent = out.indent) :
    f (out.append more) = out.append (f more) := by
  rw [h, h more, append_assoc, indent_append, hindent]

protected theorem id : Appends fun out => out :=
  fun _ => by simp [Output.append, blank]

theorem next (hf : Appends f) (hg : Appends g) : Appends fun out => g (f out) := by
  intro out
  dsimp only
  rw [hf out]
  exact hg.append (hf.indent _)

theorem ite {p : Prop} [Decidable p] (hf : Appends f) (hg : Appends g) :
    Appends fun out => if p then f out else g out := by
  split
  · exact hf
  · exact hg

theorem write (s : String) : Appends (·.write s) :=
  fun _ => by simp [Output.append, Output.write, writeChars, blank, List.reverseAux_eq]

theorem separate (sep : Separator) : Appends (·.separate sep) :=
  fun _ => by simp [Output.append, Output.separate, writeChars, blank, List.reverseAux_eq]

theorem misfit (span : Span) (m : Misfit) : Appends (·.misfit span m) :=
  fun _ => by simp [Output.append, Output.misfit, blank]

theorem between (left right : String) (hf : Appends f) : Appends (·.between left right f) :=
  ((write left).next hf).next (write right)

theorem groupIf (need : Bool) (hf : Appends f) : Appends (·.groupIf need f) :=
  (between "(" ")" hf).ite hf

/-- The parentheses are put in around what `f` adds, wherever that stands. -/
theorem parenthesizeIf (p : List Char → Bool) (hf : Appends f) : Appends (·.parenthesizeIf p f) := by
  intro out
  simp only [Output.parenthesizeIf]
  rw [hf out, since_append, since_blank]
  split
  · rw [insert_append]
    exact (write ")").append (hf.indent _)
  · rfl

theorem indented (hf : Appends f) : Appends (·.indented f) := by
  intro out
  dsimp only [Output.indented]
  rw [hf]
  simp [Output.append, blank]

theorem braces (hf : Appends f) : Appends (·.braces f) :=
  (((write "\x7b").next hf.indented).next (separate .line)).next (write "\x7d")

end Appends

end Output

open Output (Appends)

/-- A node is printed in a role by adding, if that is how its own text is printed. -/
theorem Role.appends_place {α : Type} (role : Role) (span : Span) (kind : Kind α)
    {own : Output → Output} (h : Appends own) : Appends (role.place span kind own) := by
  unfold Role.place
  generalize kind.category = category
  cases role with
  | statement =>
    cases category with
    | statement | program => exact h
    | expression => exact (h.parenthesizeIf _).next (.write ";")
    | _ => exact .misfit _ _
  | expression min =>
    cases category with
    | expression => exact h.groupIf _
    | _ => exact Appends.groupIf _ (.misfit _ _)
  | declarator =>
    cases category with
    | declarator => exact h
    | _ => exact .misfit _ _
  | param =>
    cases category with
    | param => exact h
    | _ => exact h.ite (.misfit _ _)
  | property =>
    cases category with
    | property => exact h
    | _ => exact .misfit _ _

namespace Tree

/-! ## Trees -/

theorem writeParams_eq (params : List (Tree Span)) (out : Output) :
    writeParams params out = out.between "(" ")" (writeAll .comma .param true params) := by
  cases params <;> rfl

theorem writeBlock_cons (t : Tree Span) (ts : List (Tree Span)) (out : Output) :
    writeBlock (t :: ts) out = out.braces (writeAll .line .statement false (t :: ts)) := rfl

/-- A statement that is no block is put between braces as if it were alone in one. -/
theorem writeBraced_eq (t : Tree Span) (out : Output) :
    writeBraced t out = if t.kind.isBlock then t.write .statement out else writeBlock [t] out := by
  obtain ⟨a, k⟩ := t
  cases k <;> rfl

theorem writeOwn_arrowFunction {body : Tree Span} (h : body.kind.isBlock = false) (span : Span)
    (params : List (Tree Span)) (out : Output) :
    writeOwn span (.arrowFunction params body) out
      = ((writeParams params out).write " => ").parenthesizeIf startsWithBrace
          (write body (.expression Precedence.assign)) := by
  obtain ⟨a, k⟩ := body
  cases k with
  | block => cases h
  | _ => rfl

/-- In every role, the tree is printed by adding. -/
def Adding (t : Tree Span) : Prop :=
  ∀ role, Appends (t.write role)

theorem appends_writeAll {sep : Separator} {role : Role} :
    ∀ {first : Bool} {ts : List (Tree Span)}, (∀ t ∈ ts, t.Adding) →
      Appends (writeAll sep role first ts)
  | _, [], _ => .id
  | first, t :: ts, h => by
    rw [List.forall_mem_cons] at h
    have hsep : Appends fun out => if first then out else out.separate sep := .ite .id (.separate sep)
    exact (hsep.next (h.1 role)).next (appends_writeAll h.2)

theorem appends_writeMaybe {before : String} {role : Role} {t? : Option (Tree Span)}
    (h : ∀ t ∈ t?.toList, t.Adding) : Appends (writeMaybe before role t?) := by
  cases t? with
  | none => exact .id
  | some t => exact (Appends.write before).next (h t (by simp) role)

theorem appends_foldl_write : ∀ texts : List String, Appends fun out => texts.foldl Output.write out
  | [] => .id
  | s :: texts => (Appends.write s).next (appends_foldl_write texts)

theorem appends_writeTemplate : ∀ {ts : List (Tree Span)} {texts : List String},
    (∀ t ∈ ts, t.Adding) → Appends (writeTemplate ts texts)
  | [], texts, _ => appends_foldl_write texts
  | _ :: _, [], _ => .id
  | t :: ts, s :: texts, h => by
    rw [List.forall_mem_cons] at h
    exact ((Appends.write s).next ((h.1 _).between _ _)).next (appends_writeTemplate h.2)

theorem appends_writeParams {params : List (Tree Span)} (h : ∀ t ∈ params, t.Adding) :
    Appends (writeParams params) := by
  rw [show writeParams params = _ from funext (writeParams_eq params)]
  exact (appends_writeAll h).between _ _

theorem appends_writeBlock {body : List (Tree Span)} (h : ∀ t ∈ body, t.Adding) :
    Appends (writeBlock body) := by
  cases body with
  | nil => exact .write _
  | cons t ts =>
    rw [show writeBlock (t :: ts) = _ from funext (writeBlock_cons t ts)]
    exact (appends_writeAll h).braces

theorem appends_writeBraced {t : Tree Span} (h : t.Adding) : Appends (writeBraced t) := by
  rw [show writeBraced t = _ from funext (writeBraced_eq t)]
  exact .ite (h .statement) (appends_writeBlock (List.forall_mem_singleton.mpr h))

theorem appends_signature {params : List (Tree Span)} {body : Tree Span}
    (hparams : ∀ t ∈ params, t.Adding) (hbody : body.Adding) :
    Appends fun out => write body .statement ((writeParams params out).write " ") :=
  ((appends_writeParams hparams).next (.write " ")).next (hbody .statement)

theorem appends_writeProperty {value : Tree Span} (hvalue : value.Adding)
    (hinside : ∀ c ∈ value.kind.children, c.Adding) (span : Span) (key : PropertyKey)
    (shorthand method : Bool) : Appends (writeOwn span (.property key value shorthand method)) := by
  have hshorthand : Appends fun out =>
      if shorthand = true then out.misfit span (.shorthand key.text) else out := .ite (.misfit _ _) .id
  have hmethod : Appends fun out =>
      if method = true then out.misfit span (.method key.text) else out := .ite (.misfit _ _) .id
  have hplain : Appends fun out => write value (.expression Precedence.assign)
      (((if method = true then out.misfit span (.method key.text) else out).write key.text).write ": ") :=
    ((hmethod.next (.write key.text)).next (.write ": ")).next (hvalue _)
  obtain ⟨a, k⟩ := value
  cases method with
  | false => exact .ite (.write key.name) (hshorthand.next hplain)
  | true =>
    cases k with
    | functionExpression name params body =>
      have hparams : ∀ p ∈ params, p.Adding := fun p hp => hinside p (by simp [Kind.children, hp])
      have hsignature := appends_signature hparams (hinside body (by simp [Kind.children]))
      exact .ite (.write key.name) (hshorthand.next ((Appends.write key.text).next hsignature))
    | _ => exact .ite (.write key.name) (hshorthand.next hplain)

/-- A node's own text is printed by adding, if its children are. A method is printed as the parts of the
function that is its value. -/
theorem appends_writeOwn {k : Kind (Tree Span)} (hc : ∀ c ∈ k.children, c.Adding)
    (hinside : ∀ c ∈ k.children, ∀ d ∈ c.kind.children, d.Adding) (span : Span) :
    Appends (writeOwn span k) := by
  cases k with
  | program body => exact appends_writeAll hc
  | declaration keyword declarators =>
    exact (((Appends.write _).next (.write " ")).next (appends_writeAll hc)).next (.write ";")
  | declarator name init => exact (Appends.write name).next (appends_writeMaybe hc)
  | functionDeclaration name params body =>
    exact ((Appends.write "function ").next (.write name)).next (appends_signature
      (fun p hp => hc p (by simp [Kind.children, hp])) (hc body (by simp [Kind.children])))
  | returnStatement argument =>
    exact ((Appends.write "return").next (appends_writeMaybe hc)).next (.write ";")
  | ifStatement test consequent alternate =>
    have htest : Appends fun out =>
        out.between "if (" ") " (write test (.expression Precedence.assign)) :=
      (hc test (by simp [Kind.children]) _).between _ _
    have hconsequent := hc consequent (by simp [Kind.children])
    cases alternate with
    | none => exact htest.next (hconsequent .statement)
    | some alternate =>
      exact ((htest.next (appends_writeBraced hconsequent)).next (.write " else ")).next
        (hc alternate (by simp [Kind.children]) .statement)
  | whileStatement test body =>
    exact ((hc test (by simp [Kind.children]) _).between _ _).next
      (hc body (by simp [Kind.children]) _)
  | block body => exact appends_writeBlock hc
  | expressionStatement expression =>
    exact ((hc expression (by simp [Kind.children]) _).parenthesizeIf _).next (.write ";")
  | empty => exact .write ";"
  | param name fallback rest =>
    have hrest : Appends fun out => if rest = true then out.write "..." else out := .ite (.write _) .id
    exact (hrest.next (.write name)).next (appends_writeMaybe hc)
  | string raw => exact ((Appends.write "\"").next (.write raw)).next (.write "\"")
  | boolean value => exact .write _
  | template texts expressions => exact (appends_writeTemplate hc).between _ _
  | number | null | identifier | this => exact .write _
  | array elements => exact (appends_writeAll hc).between _ _
  | object properties =>
    cases properties with
    | nil => exact .write _
    | cons t ts => exact (appends_writeAll hc).between _ _
  | property key value shorthand method =>
    exact appends_writeProperty (hc value (by simp [Kind.children]))
      (hinside value (by simp [Kind.children])) span key shorthand method
  | functionExpression name params body =>
    exact ((Appends.write "function ").next (.write (name.getD ""))).next (appends_signature
      (fun p hp => hc p (by simp [Kind.children, hp])) (hc body (by simp [Kind.children])))
  | arrowFunction params body =>
    have hparams : Appends fun out => (writeParams params out).write " => " :=
      (appends_writeParams fun p hp => hc p (by simp [Kind.children, hp])).next (.write _)
    have hbody := hc body (by simp [Kind.children])
    cases hb : body.kind.isBlock with
    | true =>
      obtain ⟨s, k⟩ := body
      cases k with
      | block body => exact hparams.next (hbody .statement)
      | _ => cases hb
    | false =>
      rw [show writeOwn span _ = _ from funext (writeOwn_arrowFunction hb span params)]
      exact hparams.next ((hbody _).parenthesizeIf _)
  | member base name =>
    exact ((hc base (by simp [Kind.children]) _).next (.write ".")).next (.write name)
  | index base key =>
    exact (hc base (by simp [Kind.children]) _).next
      ((hc key (by simp [Kind.children]) _).between _ _)
  | call callee arguments =>
    exact (hc callee (by simp [Kind.children]) _).next
      ((appends_writeAll fun c h => hc c (by simp [Kind.children, h])).between _ _)
  | binary op left right =>
    exact ((((hc left (by simp [Kind.children]) _).next (.write " ")).next (.write op.symbol)).next
      (.write " ")).next (hc right (by simp [Kind.children]) _)
  | unary op argument =>
    exact (Appends.write op.symbol).next (hc argument (by simp [Kind.children]) _)
  | assign target value =>
    exact ((hc target (by simp [Kind.children]) _).next (.write " = ")).next
      (hc value (by simp [Kind.children]) _)

private theorem adding_and_inside (t : Tree Span) : t.Adding ∧ ∀ c ∈ t.kind.children, c.Adding := by
  induction t using induction_on with
  | node a k ih =>
    have hc : ∀ c ∈ k.children, c.Adding := fun c hc => (ih c hc).1
    exact ⟨fun role => role.appends_place a k (appends_writeOwn hc (fun c hc => (ih c hc).2) a), hc⟩

/-- Printing a tree in any role adds what it adds to an empty output. -/
theorem appends_write (t : Tree Span) (role : Role) : Appends (t.write role) :=
  (adding_and_inside t).1 role

@[simp] theorem indent_write (t : Tree Span) (role : Role) (out : Output) :
    (t.write role out).indent = out.indent :=
  (t.appends_write role).indent out

@[simp] theorem indent_writeAll (sep : Separator) (role : Role) (first : Bool) (ts : List (Tree Span))
    (out : Output) : (writeAll sep role first ts out).indent = out.indent :=
  (appends_writeAll fun t _ => t.appends_write).indent out

@[simp] theorem indent_writeParams (params : List (Tree Span)) (out : Output) :
    (writeParams params out).indent = out.indent :=
  (appends_writeParams fun t _ => t.appends_write).indent out

@[simp] theorem indent_writeBraced (t : Tree Span) (out : Output) :
    (writeBraced t out).indent = out.indent :=
  (appends_writeBraced t.appends_write).indent out

end Tree

end Downlevel
