import Downlevel.Proofs.Appending

/-!
# The text of a tree

`Tree.layout` says what text a tree has in each role and at each indentation, without an output that
is written to. Printing adds that text to the output (`Tree.text_write`), so it does not depend on
what was printed before, nor on the annotations of the tree.
-/

namespace Downlevel

/-- The text of a node in a role, given its own text. What does not fit there has none. -/
def Role.layout {α : Type} (role : Role) (kind : Kind α) (own : List Char) : List Char :=
  match role, kind.category with
  | .statement, .statement | .statement, .program => own
  | .statement, .expression => parenthesized readsAsStatement own ++ [';']
  | .expression min, .expression =>
    if kind.precedence < min then '(' :: (own ++ [')']) else own
  | .expression min, _ => if kind.precedence < min then "()".toList else []
  | .declarator, .declarator | .param, .param | .property, .property => own
  | .param, _ => if kind.identifierName?.isSome then own else []
  | _, _ => []

/-- What the text around a subtree depends on. -/
structure Layout where
  text : Role → Nat → List Char
  isBlock : Bool
  name? : Option String
  /-- The parameters and the body of a function expression, as a method is written. -/
  method? : Option (Nat → List Char)

namespace Layout

/-- Texts in one role, separated by `sep`. -/
def list (sep : List Char) (role : Role) (indent : Nat) : List Layout → List Char
  | [] => []
  | l :: ls => l.text role indent ++ ls.flatMap fun l => sep ++ l.text role indent

def maybe (before : String) (role : Role) (indent : Nat) : Option Layout → List Char
  | none => []
  | some l => before.toList ++ l.text role indent

def template (indent : Nat) : List Layout → List String → List Char
  | [], texts => texts.flatMap String.toList
  | _ :: _, [] => []
  | l :: ls, text :: texts =>
    text.toList ++ "$\x7b".toList ++ l.text (.expression Precedence.assign) indent ++ "\x7d".toList
      ++ template indent ls texts

/-- Statements on lines of their own between braces. -/
def braces (indent : Nat) : List Layout → List Char
  | [] => "\x7b\x7d".toList
  | ls => "\x7b".toList
      ++ (ls.flatMap fun l => lineBreak (indent + 1) ++ l.text .statement (indent + 1))
      ++ lineBreak indent ++ "\x7d".toList

/-- The parameters and the body of a function. -/
def signature (params : List Layout) (body : Layout) (indent : Nat) : List Char :=
  "(".toList ++ list ", ".toList .param indent params ++ ") ".toList ++ body.text .statement indent

def property (key : PropertyKey) (value : Layout) (shorthand method : Bool) (indent : Nat) :
    List Char :=
  if shorthand && key = .identifier key.name && value.name? = some key.name then key.name.toList
  else match method, value.method? with
    | true, some signature => key.text.toList ++ signature indent
    | _, _ => key.text.toList ++ ": ".toList ++ value.text (.expression Precedence.assign) indent

/-- The branches of a conditional. With an alternative, the first one gets braces. -/
def branches (consequent : Layout) (indent : Nat) : Option Layout → List Char
  | none => consequent.text .statement indent
  | some alternate =>
    (if consequent.isBlock then consequent.text .statement indent else braces indent [consequent])
      ++ " else ".toList ++ alternate.text .statement indent

def object (indent : Nat) : List Layout → List Char
  | [] => "\x7b\x7d".toList
  | ls => "\x7b ".toList ++ list ", ".toList .property indent ls ++ " \x7d".toList

/-- The text that belongs to a node, wherever it stands. -/
def own (kind : Kind Layout) (i : Nat) : List Char :=
  match kind with
  | .program body => list (lineBreak i) .statement i body
  | .declaration keyword declarators =>
    keyword.keyword.toList ++ " ".toList ++ list ", ".toList .declarator i declarators ++ ";".toList
  | .declarator name init =>
    name.toList ++ maybe " = " (.expression Precedence.assign) i init
  | .functionDeclaration name params body =>
    "function ".toList ++ name.toList ++ signature params body i
  | .returnStatement argument =>
    "return".toList ++ maybe " " (.expression Precedence.assign) i argument ++ ";".toList
  | .ifStatement test consequent alternate =>
    "if (".toList ++ test.text (.expression Precedence.assign) i ++ ") ".toList
      ++ branches consequent i alternate
  | .whileStatement test body =>
    "while (".toList ++ test.text (.expression Precedence.assign) i ++ ") ".toList
      ++ body.text .statement i
  | .block body => braces i body
  | .expressionStatement expression =>
    parenthesized readsAsStatement (expression.text (.expression Precedence.assign) i)
      ++ ";".toList
  | .empty => ";".toList
  | .param name fallback rest =>
    (if rest then "...".toList else []) ++ name.toList
      ++ maybe " = " (.expression Precedence.assign) i fallback
  | .number raw => raw.toList
  | .string raw => "\"".toList ++ raw.toList ++ "\"".toList
  | .boolean value => (if value then "true" else "false").toList
  | .null => "null".toList
  | .template texts expressions => "`".toList ++ template i expressions texts ++ "`".toList
  | .identifier name => name.toList
  | .this => "this".toList
  | .array elements =>
    "[".toList ++ list ", ".toList (.expression Precedence.assign) i elements ++ "]".toList
  | .object properties => object i properties
  | .property key value shorthand method => property key value shorthand method i
  | .functionExpression name params body =>
    "function ".toList ++ (name.getD "").toList ++ signature params body i
  | .arrowFunction params body =>
    "(".toList ++ list ", ".toList .param i params ++ ") => ".toList
      ++ if body.isBlock then body.text .statement i
        else parenthesized startsWithBrace (body.text (.expression Precedence.assign) i)
  | .member base name =>
    base.text (.expression Precedence.suffix) i ++ ".".toList ++ name.toList
  | .index base key =>
    base.text (.expression Precedence.suffix) i ++ "[".toList
      ++ key.text (.expression Precedence.assign) i ++ "]".toList
  | .call callee arguments =>
    callee.text (.expression Precedence.suffix) i ++ "(".toList
      ++ list ", ".toList (.expression Precedence.assign) i arguments ++ ")".toList
  | .binary op left right =>
    left.text (.expression op.operandPrecedence.1) i ++ " ".toList ++ op.symbol.toList
      ++ " ".toList ++ right.text (.expression op.operandPrecedence.2) i
  | .unary op argument =>
    op.symbol.toList ++ argument.text (.expression Precedence.unary) i
  | .assign target value =>
    target.text (.expression Precedence.suffix) i ++ " = ".toList
      ++ value.text (.expression Precedence.assign) i

/-- The layout of a node, given those of its children. -/
def node (kind : Kind Layout) : Layout where
  text role indent := role.layout kind (own kind indent)
  isBlock := kind.isBlock
  name? := kind.identifierName?
  method? := match kind with
    | .functionExpression _ params body => some (signature params body)
    | _ => none

end Layout

/-- What text a tree has, wherever it stands. -/
def Tree.layout {σ : Type} : Tree σ → Layout :=
  fold fun _ kind => Layout.node kind

/-! ## What printing adds -/

namespace Output

variable {out : Output} {f : Output → Output} {piece : List Char}

theorem text_groupIf (hf : ∀ before, before.indent = out.indent → (f before).text = before.text ++ piece)
    (need : Bool) :
    (out.groupIf need f).text = out.text ++ if need then '(' :: (piece ++ [')']) else piece := by
  unfold groupIf
  split
  · rw [text_between, hf (out.write "(") rfl]
    simp
  · exact hf out rfl

theorem indent_indented (hindent : ∀ before, (f before).indent = before.indent) :
    (out.indented f).indent = out.indent := by
  simp [indented, hindent]

theorem text_braces
    (hf : ∀ before, before.indent = out.indent + 1 → (f before).text = before.text ++ piece)
    (hindent : ∀ before, (f before).indent = before.indent) :
    (out.braces f).text = out.text ++ '\x7b' :: (piece ++ lineBreak out.indent ++ ['\x7d']) := by
  have hpiece : ((out.write "\x7b").indented f).text = out.text ++ '\x7b' :: piece := by
    refine (hf _ rfl).trans ?_
    simp [text, write, writeChars]
  simp [braces, hpiece, indent_indented hindent]

end Output

theorem Role.text_place {α : Type} (role : Role) (span : Span) (kind : Kind α) {own : Output → Output}
    {out : Output} {piece : List Char}
    (hown : ∀ before, before.indent = out.indent → (own before).text = before.text ++ piece) :
    (role.place span kind own out).text = out.text ++ role.layout kind piece := by
  have hout := hown out rfl
  have hmisfit (m : Misfit) : ∀ before : Output, before.indent = out.indent →
      (before.misfit span m).text = before.text ++ [] := by simp
  unfold Role.place Role.layout
  cases role <;> cases kind.category <;>
    simp only [hout, Output.text_misfit, List.append_nil, Output.text_groupIf hown,
      Output.text_groupIf (hmisfit _), List.nil_append, decide_eq_true_eq]
  case statement.expression =>
    rw [Output.writeAsStatement, Output.text_write, Output.text_parenthesizeIf out hout]
    simp
  case expression.program | expression.statement | expression.declarator | expression.param
    | expression.property => rfl
  all_goals split <;> simp [hout]

@[simp] theorem Kind.precedence_map {α β : Type} (f : α → β) (k : Kind α) :
    (k.map f).precedence = k.precedence := by
  cases k <;> rfl

@[simp] theorem Role.layout_map {α β : Type} (role : Role) (f : α → β) (k : Kind α) :
    role.layout (k.map f) = role.layout k := by
  funext own
  simp [Role.layout]

namespace Tree

variable {σ τ : Type}

@[simp] theorem layout_node (a : σ) (k : Kind (Tree σ)) :
    (node a k).layout = Layout.node (k.map layout) := by
  simp [layout]

theorem layout_map (f : σ → τ) (t : Tree σ) : (t.map f).layout = t.layout := by
  induction t using induction_on with
  | node a k ih =>
    simp only [map, fold_node, layout_node, Kind.map_map]
    exact congrArg Layout.node (Kind.map_congr ih)

theorem isBlock_layout (t : Tree σ) : t.layout.isBlock = t.kind.isBlock := by
  cases t
  simp [Layout.node]

theorem name?_layout (t : Tree σ) : t.layout.name? = t.kind.identifierName? := by
  cases t
  simp [Layout.node]

/-- Printing a tree adds the text of its layout. -/
def Adds (t : Tree Span) : Prop :=
  ∀ role out, (t.write role out).text = out.text ++ t.layout.text role out.indent

theorem text_writeAll_false {sep : Separator} {role : Role} :
    ∀ {ts : List (Tree Span)} (out : Output), (∀ t ∈ ts, t.Adds) →
      (writeAll sep role false ts out).text
        = out.text ++ ts.flatMap fun t => sep.text out.indent ++ t.layout.text role out.indent
  | [], out, _ => by simp [writeAll]
  | t :: ts, out, h => by
    rw [writeAll, text_writeAll_false _ fun t ht => h t (List.mem_cons_of_mem _ ht),
      h t List.mem_cons_self]
    simp

theorem text_writeAll_true {sep : Separator} {role : Role} {ts : List (Tree Span)}
    (out : Output) (h : ∀ t ∈ ts, t.Adds) :
    (writeAll sep role true ts out).text
      = out.text ++ Layout.list (sep.text out.indent) role out.indent (ts.map layout) := by
  cases ts with
  | nil => simp [writeAll, Layout.list]
  | cons t ts =>
    rw [writeAll, text_writeAll_false _ fun t ht => h t (List.mem_cons_of_mem _ ht),
      h t List.mem_cons_self]
    simp [Layout.list, List.flatMap_map]

theorem text_writeMaybe {before : String} {role : Role} {t? : Option (Tree Span)}
    (out : Output) (h : ∀ t ∈ t?.toList, t.Adds) :
    (writeMaybe before role t? out).text
      = out.text ++ Layout.maybe before role out.indent (t?.map layout) := by
  cases t? with
  | none => simp [writeMaybe, Layout.maybe]
  | some t => simp [writeMaybe, Layout.maybe, h t (by simp) role]

theorem text_foldl_write : ∀ (texts : List String) (out : Output),
    (texts.foldl Output.write out).text = out.text ++ texts.flatMap String.toList
  | [], out => by simp
  | s :: texts, out => by simp [text_foldl_write texts]

theorem text_writeTemplate : ∀ {ts : List (Tree Span)} {texts : List String}
    (out : Output), (∀ t ∈ ts, t.Adds) →
    (writeTemplate ts texts out).text
      = out.text ++ Layout.template out.indent (ts.map layout) texts
  | [], texts, out, _ => by simp [writeTemplate, Layout.template, text_foldl_write]
  | _ :: _, [], out, _ => by simp [writeTemplate, Layout.template]
  | t :: ts, s :: texts, out, h => by
    rw [writeTemplate, text_writeTemplate _ fun t ht => h t (List.mem_cons_of_mem _ ht)]
    simp [h t List.mem_cons_self (.expression Precedence.assign), Layout.template]

theorem text_writeParams {params : List (Tree Span)} (h : ∀ t ∈ params, t.Adds) (out : Output) :
    (writeParams params out).text
      = out.text ++ '(' :: (Layout.list ", ".toList .param out.indent (params.map layout) ++ [')']) := by
  rw [writeParams_eq, Output.text_between, text_writeAll_true _ h]
  simp

theorem text_signature {params : List (Tree Span)} {body : Tree Span}
    (hparams : ∀ t ∈ params, t.Adds) (hbody : body.Adds) (out : Output) :
    (write body .statement ((writeParams params out).write " ")).text
      = out.text ++ Layout.signature (params.map layout) body.layout out.indent := by
  simp [hbody .statement, text_writeParams hparams, Layout.signature]

theorem text_writeBlock {body : List (Tree Span)} (hbody : ∀ t ∈ body, t.Adds) (out : Output) :
    (writeBlock body out).text = out.text ++ Layout.braces out.indent (body.map layout) := by
  cases body with
  | nil => simp [writeBlock, Layout.braces]
  | cons t ts =>
    have hlines : ∀ before : Output, before.indent = out.indent + 1 →
        (writeAll .line .statement false (t :: ts) before).text = before.text ++
          (t :: ts).flatMap fun t => lineBreak (out.indent + 1) ++ t.layout.text .statement (out.indent + 1) :=
      fun before h => h ▸ text_writeAll_false before hbody
    rw [writeBlock_cons, Output.text_braces hlines (indent_writeAll _ _ _ _)]
    simp [Layout.braces, List.flatMap_map]

/-- A statement in braces, unless it is a block itself. -/
theorem text_writeBraced {t : Tree Span} (h : t.Adds) (out : Output) :
    (writeBraced t out).text = out.text ++
      if t.layout.isBlock then t.layout.text .statement out.indent
      else Layout.braces out.indent [t.layout] := by
  rw [writeBraced_eq, isBlock_layout]
  split
  · exact h .statement out
  · exact text_writeBlock (List.forall_mem_singleton.mpr h) out

/-- The parameters and the body of a method are those of its value. -/
def MethodAdds (t : Tree Span) : Prop :=
  ∀ a name params body, t = node a (.functionExpression name params body) →
    (∀ p ∈ params, p.Adds) ∧ body.Adds

theorem text_writeProperty {key : PropertyKey} {value : Tree Span} (hvalue : value.Adds)
    (hmethod : value.MethodAdds) (shorthand method : Bool) (span : Span) (out : Output) :
    (writeOwn span (.property key value shorthand method) out).text
      = out.text ++ Layout.property key value.layout shorthand method out.indent := by
  rw [writeOwn]
  unfold Layout.property
  rw [name?_layout]
  split
  · simp
  · dsimp only
    have hout : (if shorthand = true then out.misfit span (.shorthand key.text) else out).text
        = out.text := by split <;> rfl
    have hindent : (if shorthand = true then out.misfit span (.shorthand key.text) else out).indent
        = out.indent := by split <;> rfl
    generalize (if shorthand = true then out.misfit span (.shorthand key.text) else out) = out'
      at hout hindent ⊢
    rw [← hout, ← hindent]
    split
    · rename_i name params body _
      obtain ⟨hparams, hbody⟩ := hmethod _ name params body rfl
      rw [text_signature hparams hbody]
      simp [Layout.node, Kind.map]
    · rename_i hno
      -- The layout has no method either, so both sides write the value after a colon
      have hlayout : ∀ signature, method = true → value.layout.method? = some signature → False := by
        intro signature hm hs
        obtain ⟨a, k⟩ := value
        rw [layout_node] at hs
        cases k with
        | functionExpression name params body => exact hno _ _ _ _ hm rfl
        | _ => cases hs
      have hout' : (if method = true then out'.misfit span (.method key.text) else out').text
          = out'.text := by split <;> rfl
      have hindent' : (if method = true then out'.misfit span (.method key.text) else out').indent
          = out'.indent := by split <;> rfl
      rw [hvalue, Output.text_write, Output.text_write, hout', Output.indent_write, Output.indent_write,
        hindent']
      split
      · exact (hlayout _ rfl (by assumption)).elim
      · simp

theorem isBlock_eq_true {k : Kind (Tree σ)} (h : k.isBlock = true) : ∃ body, k = .block body := by
  cases k <;> first | exact ⟨_, rfl⟩ | cases h

theorem text_writeOwn {k : Kind (Tree Span)} (hc : ∀ c ∈ k.children, c.Adds)
    (hm : ∀ c ∈ k.children, c.MethodAdds) (span : Span) (out : Output) :
    (writeOwn span k out).text = out.text ++ Layout.own (k.map layout) out.indent := by
  cases k with
  | program body =>
    have hbody : ∀ c ∈ body, c.Adds := hc
    rw [writeOwn, text_writeAll_true out hbody]
    rfl
  | declaration keyword declarators =>
    have hdeclarators : ∀ c ∈ declarators, c.Adds := hc
    rw [writeOwn, Output.text_write, text_writeAll_true _ hdeclarators]
    unfold Layout.own
    simp [Kind.map]
  | declarator name init =>
    have hinit : ∀ c ∈ init.toList, c.Adds := hc
    rw [writeOwn, text_writeMaybe _ hinit]
    unfold Layout.own
    simp [Kind.map]
  | functionDeclaration name params body | functionExpression name params body =>
    rw [writeOwn, text_signature (fun p hp => hc p (by simp [Kind.children, hp]))
      (hc body (by simp [Kind.children]))]
    unfold Layout.own
    simp [Kind.map]
  | returnStatement argument =>
    have hargument : ∀ c ∈ argument.toList, c.Adds := hc
    rw [writeOwn, Output.text_write, text_writeMaybe _ hargument]
    unfold Layout.own
    simp [Kind.map]
  | ifStatement test consequent alternate =>
    have htest := hc test (by simp [Kind.children])
    have hcons := hc consequent (by simp [Kind.children])
    cases alternate with
    | none =>
      rw [writeOwn, hcons, Output.text_between, htest]
      unfold Layout.own
      simp [Kind.map, Layout.branches]
    | some alternate =>
      rw [writeOwn, hc alternate (by simp [Kind.children]), Output.text_write, text_writeBraced hcons,
        Output.text_between, htest]
      unfold Layout.own
      simp [Kind.map, Layout.branches]
  | whileStatement test body =>
    rw [writeOwn, hc body (by simp [Kind.children]), Output.text_between,
      hc test (by simp [Kind.children])]
    unfold Layout.own
    simp [Kind.map]
  | block body =>
    have hbody : ∀ c ∈ body, c.Adds := hc
    exact text_writeBlock hbody out
  | expressionStatement expression =>
    rw [writeOwn, Output.writeAsStatement, Output.text_write,
      Output.text_parenthesizeIf out (hc expression (by simp [Kind.children]) _ _)]
    unfold Layout.own
    simp [Kind.map]
  | param name fallback rest =>
    have hfallback : ∀ c ∈ fallback.toList, c.Adds := hc
    rw [writeOwn, text_writeMaybe _ hfallback]
    unfold Layout.own
    cases rest <;> simp [Kind.map]
  | template texts expressions =>
    have hexpressions : ∀ c ∈ expressions, c.Adds := hc
    rw [writeOwn, Output.text_between, text_writeTemplate _ hexpressions]
    unfold Layout.own
    simp [Kind.map]
  | array elements =>
    have helements : ∀ c ∈ elements, c.Adds := hc
    rw [writeOwn, Output.text_between, text_writeAll_true _ helements]
    unfold Layout.own
    simp [Kind.map]
  | object properties =>
    cases properties with
    | nil =>
      unfold Layout.own
      simp [writeOwn, Kind.map, Layout.object]
    | cons t ts =>
      have hproperties : ∀ c ∈ t :: ts, c.Adds := hc
      rw [writeOwn, Output.text_between, text_writeAll_true _ hproperties]
      unfold Layout.own
      simp [Kind.map, Layout.object]
  | property key value shorthand method =>
    rw [text_writeProperty (hc value (by simp [Kind.children])) (hm value (by simp [Kind.children]))]
    rfl
  | arrowFunction params body =>
    have hparams : ∀ p ∈ params, p.Adds := fun p hp => hc p (by simp [Kind.children, hp])
    have hbody := hc body (by simp [Kind.children])
    cases hb : body.kind.isBlock with
    | true =>
      obtain ⟨s, k⟩ := body
      obtain ⟨body, rfl⟩ := isBlock_eq_true hb
      rw [writeOwn, hbody, Output.text_write, text_writeParams hparams]
      unfold Layout.own
      simp [-layout_node, Kind.map, isBlock_layout, Kind.isBlock]
    | false =>
      rw [writeOwn_arrowFunction hb, Output.text_parenthesizeIf _ (hbody _ _), Output.text_write,
        text_writeParams hparams]
      unfold Layout.own
      simp [Kind.map, isBlock_layout, hb]
  | member base name =>
    rw [writeOwn, Output.text_write, Output.text_write, hc base (by simp [Kind.children])]
    unfold Layout.own
    simp [Kind.map]
  | index base key =>
    rw [writeOwn, Output.text_between, hc key (by simp [Kind.children]), Output.text_write,
      hc base (by simp [Kind.children])]
    unfold Layout.own
    simp [Kind.map]
  | call callee arguments =>
    rw [writeOwn, Output.text_between, text_writeAll_true _ fun c h => hc c (by simp [Kind.children, h]),
      Output.text_write, hc callee (by simp [Kind.children])]
    unfold Layout.own
    simp [Kind.map]
  | binary op left right =>
    rw [writeOwn, hc right (by simp [Kind.children]), Output.text_write, Output.text_write,
      Output.text_write, hc left (by simp [Kind.children])]
    unfold Layout.own
    simp [Kind.map]
  | unary op argument =>
    rw [writeOwn, hc argument (by simp [Kind.children])]
    unfold Layout.own
    simp [Kind.map]
  | assign target value =>
    rw [writeOwn, hc value (by simp [Kind.children]), Output.text_write,
      hc target (by simp [Kind.children])]
    unfold Layout.own
    simp [Kind.map]
  | empty | number raw | string raw | boolean value | null | identifier name | this =>
    unfold Layout.own
    simp [writeOwn, Kind.map]

theorem adds_and_methodAdds (t : Tree Span) : t.Adds ∧ t.MethodAdds := by
  induction t using induction_on with
  | node a k ih =>
    refine ⟨fun role out => ?_, ?_⟩
    · have hnode : (Layout.node (k.map layout)).text role out.indent
          = role.layout k (Layout.own (k.map layout) out.indent) := by
        rw [← role.layout_map layout k]
        rfl
      rw [write, layout_node, hnode]
      refine role.text_place a k fun before hindent => ?_
      have hc : ∀ c ∈ k.children, c.Adds := fun c hc => (ih c hc).1
      rw [text_writeOwn hc (fun c hc => (ih c hc).2), hindent]
    · rintro _ name params body ⟨⟩
      exact ⟨fun p hp => (ih p (by simp [Kind.children, hp])).1,
        (ih body (by simp [Kind.children])).1⟩

/-- Printing a tree adds its text. -/
theorem text_write (t : Tree Span) (role : Role) (out : Output) :
    (t.write role out).text = out.text ++ t.layout.text role out.indent :=
  (adds_and_methodAdds t).1 role out

theorem text_foldl_statements : ∀ (body : List (Tree Span)) (out : Output),
    (body.foldl (fun out s => (s.write .statement out).write "\n") out).text
      = out.text ++ body.flatMap fun s => s.layout.text .statement out.indent ++ ['\n']
  | [], out => by simp
  | s :: body, out => by simp [text_foldl_statements body, text_write]

/-- The statements that a tree is printed as: those of a program, or the tree itself. -/
def statements (t : Tree σ) : List (Tree σ) :=
  match t.kind with
  | .program body => body
  | _ => [t]

/-- One statement is printed to a line. -/
theorem text_print (t : Tree Span) :
    t.print.text = t.statements.flatMap fun s => s.layout.text .statement 0 ++ ['\n'] := by
  obtain ⟨a, k⟩ := t
  cases k <;> exact text_foldl_statements _ {}

theorem text_print_program (a : Span) (body : List (Tree Span)) :
    (node a (.program body)).print.text
      = body.flatMap fun s => s.layout.text .statement 0 ++ ['\n'] :=
  text_print (node a (.program body))

end Tree

end Downlevel
