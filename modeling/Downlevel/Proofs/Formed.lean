import Downlevel.Grammar.Lexeme
import Downlevel.Proofs.Layout

/-!
# Well-formed trees

A node is well-formed if its texts are lexemes and each child is of a kind that may stand where it
does; this can be seen from the node and the kinds of its children (`Kind.formed`). Of a tree in which
every node is well-formed, every part fits where it stands, so it is printed without a warning
(`Tree.warnings_write`).

`Tree.braced` puts braces around the first branch of every conditional that has a second one, as
printing does anyway: it does not change the text.
-/

namespace Downlevel

namespace Lexeme

/-- Whether the text is a name that is no keyword. -/
def isIdentifier (s : String) : Bool :=
  identifier s.toList = some s.toList.length

def isName (s : String) : Bool :=
  name s.toList = some s.toList.length

def isNumber (s : String) : Bool :=
  number s.toList = some s.toList.length

/-- Whether the text may stand between the quotes of a string. -/
def isStringContents (s : String) : Bool :=
  stringContents s.toList = s.toList.length

/-- Whether the text may stand in a template, between substitutions. -/
def isTemplateText (s : String) : Bool :=
  templateText s.toList = s.toList.length

end Lexeme

/-- Whether a key can be written as it is. -/
def PropertyKey.formed : PropertyKey → Bool
  | identifier name => Lexeme.isName name
  | string raw => Lexeme.isStringContents raw

namespace Kind

variable {α β : Type}

def isExpression (k : Kind α) : Bool :=
  k.category = .expression

def isDeclarator (k : Kind α) : Bool :=
  k.category = .declarator

def isParam (k : Kind α) : Bool :=
  k.category = .param

def isProperty (k : Kind α) : Bool :=
  k.category = .property

def isRest : Kind α → Bool
  | param _ _ rest => rest
  | _ => false

/-- Whether the node is a function expression without a name. -/
def isMethod : Kind α → Bool
  | functionExpression none _ _ => true
  | _ => false

/-- Whether these are parameters, of which only the last may be a rest parameter. -/
def paramsFormed (params : List (Kind α)) : Bool :=
  params.all isParam && params.dropLast.all (!·.isRest)

/-- Whether the value of a property is one that can be written the way its flags say. -/
def valueFormed (key : PropertyKey) (value : Kind α) : (shorthand method : Bool) → Bool
  | false, false => value.isExpression
  | true, false => key = .identifier key.name && value.identifierName? = some key.name
  | false, true => value.isMethod
  | true, true => false

/-- Whether a node, given with the kinds of its children, may stand in a syntax tree. -/
def formed : Kind (Kind α) → Bool
  | program body | block body => body.all isStatement
  | declaration _ declarators => !declarators.isEmpty && declarators.all isDeclarator
  | declarator name init => Lexeme.isIdentifier name && init.all isExpression
  | functionDeclaration name params body =>
    Lexeme.isIdentifier name && paramsFormed params && body.isBlock
  | returnStatement argument => argument.all isExpression
  | ifStatement test consequent alternate =>
    test.isExpression && consequent.isStatement && alternate.all isStatement
  | whileStatement test body => test.isExpression && body.isStatement
  | expressionStatement expression => expression.isExpression
  | param name fallback rest =>
    Lexeme.isIdentifier name && fallback.all isExpression && !(rest && fallback.isSome)
  | number raw => Lexeme.isNumber raw
  | string raw => Lexeme.isStringContents raw
  | template quasis expressions =>
    quasis.length = expressions.length + 1 && quasis.all Lexeme.isTemplateText &&
      expressions.all isExpression
  | identifier name => Lexeme.isIdentifier name
  | array elements => elements.all isExpression
  | object properties => properties.all isProperty
  | property key value shorthand method => key.formed && valueFormed key value shorthand method
  | functionExpression name params body =>
    name.all Lexeme.isIdentifier && paramsFormed params && body.isBlock
  | arrowFunction params body => paramsFormed params && (body.isBlock || body.isExpression)
  | member base name => base.isExpression && Lexeme.isName name
  | index base key => base.isExpression && key.isExpression
  | call callee arguments => callee.isExpression && arguments.all isExpression
  | binary _ left right => left.isExpression && right.isExpression
  | unary _ argument => argument.isExpression
  | assign target value => target.isPlace && value.isExpression
  | empty | boolean _ | null | this => true

/-- Whether the first branch of a conditional with two branches is a block. -/
def isBraced : Kind (Kind α) → Bool
  | ifStatement _ consequent (some _) => consequent.isBlock
  | _ => true

theorem isExpression_of_isPlace {k : Kind α} (h : k.isPlace = true) : k.isExpression = true := by
  cases k <;> first | rfl | cases h

theorem isExpression_of_isMethod {k : Kind α} (h : k.isMethod = true) :
    k.isExpression = true := by
  cases k <;> first | rfl | cases h

theorem isStatement_of_isBlock {k : Kind α} (h : k.isBlock = true) : k.isStatement = true := by
  cases k <;> first | rfl | cases h

theorem isExpression_of_identifierName? {k : Kind α} {name : String}
    (h : k.identifierName? = some name) : k = .identifier name := by
  cases k <;> simp_all [identifierName?]

theorem isExpression_of_valueFormed {k : Kind α} {key : PropertyKey} {shorthand method : Bool}
    (h : valueFormed key k shorthand method = true) : k.isExpression = true := by
  cases shorthand <;> cases method <;>
    simp only [valueFormed, Bool.and_eq_true, decide_eq_true_eq] at h
  · exact h
  · exact isExpression_of_isMethod h
  · rw [isExpression_of_identifierName? h.2]
    rfl
  · cases h

/-- The categories that children of a well-formed node have. -/
def admits : Kind α → List Category
  | program _ | block _ => [.statement]
  | declaration .. => [.declarator]
  | functionDeclaration .. | functionExpression .. => [.param, .statement]
  | arrowFunction .. => [.param, .statement, .expression]
  | ifStatement .. | whileStatement .. => [.expression, .statement]
  | object _ => [.property]
  | _ => [.expression]

/-- What a parent may ask about a child. -/
structure Alike (k : Kind α) (l : Kind β) : Prop where
  category : k.category = l.category
  isBlock : k.isBlock = l.isBlock
  isPlace : k.isPlace = l.isPlace
  isRest : k.isRest = l.isRest
  isMethod : k.isMethod = l.isMethod
  identifierName? : k.identifierName? = l.identifierName?

theorem Alike.trans {γ : Type} {k : Kind α} {l : Kind β} {m : Kind γ} (h : k.Alike l)
    (h' : l.Alike m) : k.Alike m where
  category := h.category.trans h'.category
  isBlock := h.isBlock.trans h'.isBlock
  isPlace := h.isPlace.trans h'.isPlace
  isRest := h.isRest.trans h'.isRest
  isMethod := h.isMethod.trans h'.isMethod
  identifierName? := h.identifierName?.trans h'.identifierName?

theorem alike_map (f : α → β) (k : Kind α) : (k.map f).Alike k where
  category := k.category_map f
  isBlock := k.isBlock_map f
  isPlace := k.isPlace_map f
  isRest := by cases k <;> rfl
  isMethod := by
    cases k with
    | functionExpression name _ _ => cases name <;> rfl
    | _ => rfl
  identifierName? := k.identifierName?_map f

section Congr

variable {γ : Type} {u : γ → Kind α} {v : γ → Kind β}

theorem all_map_congr {p : Kind α → Bool} {q : Kind β → Bool} {l : List γ}
    (h : ∀ c ∈ l, p (u c) = q (v c)) : (l.map u).all p = (l.map v).all q := by
  induction l with
  | nil => rfl
  | cons c l ih =>
    simp only [List.map_cons, List.all_cons, h c List.mem_cons_self,
      ih fun c hc => h c (List.mem_cons_of_mem _ hc)]

theorem option_all_map_congr {p : Kind α → Bool} {q : Kind β → Bool} {l : Option γ}
    (h : ∀ c ∈ l.toList, p (u c) = q (v c)) : (l.map u).all p = (l.map v).all q := by
  cases l with
  | none => rfl
  | some c => exact h c (by simp)

theorem paramsFormed_congr {l : List γ} (h : ∀ c ∈ l, (u c).Alike (v c)) :
    paramsFormed (l.map u) = paramsFormed (l.map v) := by
  unfold paramsFormed
  congr 1
  · exact all_map_congr fun c hc => by rw [isParam, isParam, (h c hc).category]
  · rw [← List.map_dropLast, ← List.map_dropLast]
    exact all_map_congr fun c hc => by rw [(h c (l.dropLast_subset hc)).isRest]

theorem valueFormed_congr {k : Kind α} {l : Kind β} (h : k.Alike l) (key : PropertyKey)
    (shorthand method : Bool) :
    valueFormed key k shorthand method = valueFormed key l shorthand method := by
  cases shorthand <;> cases method <;>
    simp only [valueFormed, isExpression, h.category, h.identifierName?, h.isMethod]

/-- Well-formedness asks no more than that about the children. -/
theorem formed_congr {k : Kind γ} (h : ∀ c ∈ k.children, (u c).Alike (v c)) :
    (k.map u).formed = (k.map v).formed := by
  have hs : ∀ c ∈ k.children, (u c).isStatement = (v c).isStatement :=
    fun c hc => by rw [isStatement, isStatement, (h c hc).category]
  have he : ∀ c ∈ k.children, (u c).isExpression = (v c).isExpression :=
    fun c hc => by rw [isExpression, isExpression, (h c hc).category]
  have hd : ∀ c ∈ k.children, (u c).isDeclarator = (v c).isDeclarator :=
    fun c hc => by rw [isDeclarator, isDeclarator, (h c hc).category]
  have hp : ∀ c ∈ k.children, (u c).isProperty = (v c).isProperty :=
    fun c hc => by rw [isProperty, isProperty, (h c hc).category]
  have hb : ∀ c ∈ k.children, (u c).isBlock = (v c).isBlock := fun c hc => (h c hc).isBlock
  have hl : ∀ c ∈ k.children, (u c).isPlace = (v c).isPlace := fun c hc => (h c hc).isPlace
  cases k with
  | program body | block body =>
    exact all_map_congr hs
  | declaration _ declarators =>
    simp only [map, formed, List.isEmpty_map]
    exact congrArg _ (all_map_congr hd)
  | declarator _ init =>
    simp only [map, formed]
    rw [option_all_map_congr he]
  | returnStatement argument => exact option_all_map_congr he
  | param _ fallback _ =>
    simp only [map, formed, Option.isSome_map]
    rw [option_all_map_congr he]
  | functionDeclaration _ params body | functionExpression _ params body =>
    simp only [map, formed, hb body (by simp [children])]
    rw [paramsFormed_congr fun c hc => h c (by simp [children, hc])]
  | arrowFunction params body =>
    simp only [map, formed, hb body (by simp [children]), he body (by simp [children])]
    rw [paramsFormed_congr fun c hc => h c (by simp [children, hc])]
  | ifStatement test consequent alternate =>
    simp only [map, formed, he test (by simp [children]), hs consequent (by simp [children])]
    rw [option_all_map_congr fun c hc => hs c (by simpa [children] using Or.inr (Or.inr (by simpa using hc)))]
  | template quasis expressions =>
    simp only [map, formed, List.length_map]
    exact congrArg _ (all_map_congr he)
  | array elements => exact all_map_congr he
  | object properties => exact all_map_congr hp
  | property key value shorthand method =>
    simp only [map, formed, valueFormed_congr (h value (by simp [children]))]
  | call callee arguments =>
    simp only [map, formed, he callee (by simp [children])]
    rw [all_map_congr fun c hc => he c (by simp [children, hc])]
  | _ => simp_all [map, formed, children]

end Congr

end Kind

namespace Tree

variable {σ τ : Type}

/-- A property of nodes, each given with the kinds of its children, holds everywhere in a tree. -/
inductive Each (P : Kind (Kind (Tree σ)) → Prop) : Tree σ → Prop
  | node {a : σ} {k : Kind (Tree σ)} (here : P (k.map kind)) (below : ∀ c ∈ k.children, Each P c) :
    Each P (node a k)

theorem each_node {P : Kind (Kind (Tree σ)) → Prop} {a : σ} {k : Kind (Tree σ)} :
    Each P (node a k) ↔ P (k.map kind) ∧ ∀ c ∈ k.children, Each P c :=
  ⟨fun | .node here below => ⟨here, below⟩, fun h => .node h.1 h.2⟩

/-- Every node may stand where it does. -/
def Formed : Tree σ → Prop :=
  Each fun k => k.formed = true

theorem formed_node {a : σ} {k : Kind (Tree σ)} :
    (node a k).Formed ↔ (k.map kind).formed = true ∧ ∀ c ∈ k.children, c.Formed :=
  each_node

theorem map_node (f : σ → τ) (a : σ) (k : Kind (Tree σ)) :
    (node a k).map f = node (f a) (k.map (map f)) := by
  simp [map]

@[simp] theorem ann_map (f : σ → τ) (t : Tree σ) : (t.map f).ann = f t.ann := by
  obtain ⟨a, k⟩ := t
  rw [map_node]
  rfl

theorem kind_map (f : σ → τ) (t : Tree σ) : (t.map f).kind = t.kind.map (map f) := by
  cases t
  simp [map]

@[simp] theorem formed_map {f : σ → τ} {t : Tree σ} : (t.map f).Formed ↔ t.Formed := by
  induction t using induction_on with
  | node a k ih =>
    have hmap : (node a k).map f = node (f a) (k.map (map f)) := by simp [map]
    have hformed : ((k.map (map f)).map kind).formed = (k.map kind).formed := by
      rw [Kind.map_map]
      exact Kind.formed_congr fun c _ => kind_map f c ▸ Kind.alike_map _ _
    rw [hmap, formed_node, formed_node, hformed, Kind.children_map]
    refine and_congr_right fun _ => ⟨fun h c hc => ?_, fun h c hc => ?_⟩
    · exact (ih c hc).mp (h _ (List.mem_map_of_mem hc))
    · obtain ⟨d, hd, rfl⟩ := List.mem_map.mp hc
      exact (ih d hd).mpr (h d hd)

/-! ## Braces around first branches -/

/-- Puts braces around the first branch of a conditional that has a second one. -/
def brace : Kind (Tree σ) → Kind (Tree σ)
  | .ifStatement test consequent (some alternate) =>
    if consequent.kind.isBlock then .ifStatement test consequent (some alternate)
    else .ifStatement test (node consequent.ann (.block [consequent])) (some alternate)
  | k => k

/-- The tree with braces around the first branch of every conditional that has a second one. -/
def braced : Tree σ → Tree σ :=
  fold fun a k => node a (brace k)

@[simp] theorem braced_node (a : σ) (k : Kind (Tree σ)) :
    (node a k).braced = node a (brace (k.map braced)) := by
  simp [braced]

/-- Printing puts the same braces. -/
theorem layout_brace (k : Kind (Tree σ)) :
    Layout.node ((brace k).map layout) = Layout.node (k.map layout) := by
  unfold brace
  split
  · rename_i test consequent alternate
    split
    · rfl
    · rename_i hb
      have hbranches : ∀ i, Layout.branches (Layout.node (.block [consequent.layout])) i
          (some alternate.layout) = Layout.branches consequent.layout i (some alternate.layout) := by
        intro i
        simp only [Layout.branches, isBlock_layout, hb]
        rfl
      have hnode : ∀ c : Layout, Layout.node (.ifStatement test.layout c (some alternate.layout))
          = ⟨fun role i => role.layout (.empty : Kind Layout)
              ("if (".toList ++ test.layout.text (.expression Precedence.assign) i ++ ") ".toList
                ++ Layout.branches c i (some alternate.layout)), false, none, none⟩ :=
        fun _ => rfl
      simp only [Kind.map, layout_node, List.map_cons, List.map_nil, Option.map_some, hnode,
        hbranches]
  · rfl

@[simp] theorem layout_braced (t : Tree σ) : t.braced.layout = t.layout := by
  induction t using induction_on with
  | node a k ih =>
    rw [braced_node, layout_node, layout_brace, Kind.map_map, layout_node]
    exact congrArg Layout.node (Kind.map_congr ih)

theorem alike_brace (k : Kind (Tree σ)) : (brace k).Alike k := by
  unfold brace
  split
  · split <;> exact ⟨rfl, rfl, rfl, rfl, rfl, rfl⟩
  · exact ⟨rfl, rfl, rfl, rfl, rfl, rfl⟩

theorem alike_braced (t : Tree σ) : t.braced.kind.Alike t.kind := by
  obtain ⟨a, k⟩ := t
  rw [braced_node]
  exact (alike_brace _).trans (Kind.alike_map _ k)

theorem formed_brace {a : σ} {k : Kind (Tree σ)} (h : (node a k).Formed) :
    (node a (brace k)).Formed := by
  unfold brace
  split
  · rename_i test consequent alternate
    split
    · exact h
    · obtain ⟨here, below⟩ := formed_node.mp h
      simp only [Kind.map, Kind.formed, Bool.and_eq_true] at here
      have hblock : (node consequent.ann (.block [consequent])).Formed :=
        formed_node.mpr ⟨by simpa [Kind.map, Kind.formed] using here.1.2,
          by simpa [Kind.children] using below consequent (by simp [Kind.children])⟩
      refine formed_node.mpr ⟨?_, ?_⟩
      · simpa [Kind.map, Kind.formed, Kind.isStatement, Kind.category, here.1.1] using here.2
      · intro c hc
        simp only [Kind.children, List.mem_cons] at hc
        rcases hc with rfl | rfl | hc
        · exact below _ (by simp [Kind.children])
        · exact hblock
        · exact below c (by simpa [Kind.children] using Or.inr (Or.inr (by simpa using hc)))
  · exact h

theorem Formed.braced {t : Tree σ} (h : t.Formed) : t.braced.Formed := by
  induction t using Tree.induction_on with
  | node a k ih =>
    obtain ⟨here, below⟩ := formed_node.mp h
    rw [braced_node]
    refine formed_brace (formed_node.mpr ⟨?_, ?_⟩)
    · rw [Kind.map_map, Kind.formed_congr fun c _ => alike_braced c]
      exact here
    · intro c hc
      rw [Kind.children_map] at hc
      obtain ⟨d, hd, rfl⟩ := List.mem_map.mp hc
      exact ih d hd (below d hd)

/-- The first branch of every conditional with two branches is a block. -/
def Braced : Tree σ → Prop :=
  Each fun k => k.isBraced = true

theorem braced_brace {a : σ} {k : Kind (Tree σ)} (h : ∀ c ∈ k.children, c.Braced) :
    (node a (brace k)).Braced := by
  unfold brace
  split
  · rename_i test consequent alternate
    split
    · exact each_node.mpr ⟨by simpa [Kind.map, Kind.isBraced], h⟩
    · have hblock : (node consequent.ann (.block [consequent])).Braced :=
        each_node.mpr ⟨rfl, fun c hc => by
          obtain rfl : c = consequent := by simpa [Kind.children] using hc
          exact h _ (by simp [Kind.children])⟩
      refine each_node.mpr ⟨rfl, ?_⟩
      intro c hc
      simp only [Kind.children, List.mem_cons] at hc
      rcases hc with rfl | rfl | hc
      · exact h _ (by simp [Kind.children])
      · exact hblock
      · exact h c (by simpa [Kind.children] using Or.inr (Or.inr (by simpa using hc)))
  · rename_i hno
    refine each_node.mpr ⟨?_, h⟩
    cases k with
    | ifStatement test consequent alternate =>
      cases alternate with
      | none => rfl
      | some alternate => exact (hno _ _ _ rfl).elim
    | _ => rfl

theorem braced_braced (t : Tree σ) : t.braced.Braced := by
  induction t using induction_on with
  | node a k ih =>
    rw [braced_node]
    refine braced_brace fun c hc => ?_
    rw [Kind.children_map] at hc
    obtain ⟨d, hd, rfl⟩ := List.mem_map.mp hc
    exact ih d hd

end Tree

/-! ## No warnings -/

namespace Output

@[simp] theorem warnings_writeChars (out : Output) (cs : List Char) :
    (out.writeChars cs).warnings = out.warnings := rfl

@[simp] theorem warnings_write (out : Output) (s : String) :
    (out.write s).warnings = out.warnings := rfl

@[simp] theorem warnings_separate (out : Output) (sep : Separator) :
    (out.separate sep).warnings = out.warnings := rfl

@[simp] theorem warnings_between (out : Output) (left right : String) (f : Output → Output) :
    (out.between left right f).warnings = (f (out.write left)).warnings := rfl

@[simp] theorem warnings_parenthesizeIf (out : Output) (p : List Char → Bool)
    (f : Output → Output) : (out.parenthesizeIf p f).warnings = (f out).warnings := by
  unfold parenthesizeIf
  dsimp only
  split <;> rfl

end Output

/-- Whether a node may be printed in a role. -/
def Role.fits {α : Type} : Role → Kind α → Bool
  | .statement, k => k.isStatement
  | .expression _, k => k.isExpression
  | .declarator, k => k.isDeclarator
  | .param, k => k.isParam
  | .property, k => k.isProperty

theorem Role.warnings_place {α : Type} {role : Role} {span : Span} {kind : Kind α}
    {own : Output → Output} (hrole : role.fits kind = true) (hown : ∀ out, (own out).warnings = out.warnings)
    (out : Output) : (role.place span kind own out).warnings = out.warnings := by
  unfold Role.place
  cases role <;>
    simp only [Role.fits, Kind.isStatement, Kind.isExpression, Kind.isDeclarator, Kind.isParam,
      Kind.isProperty, decide_eq_true_eq] at hrole <;>
    simp only [hrole, hown]
  unfold Output.groupIf
  split <;> simp [hown]

namespace Tree

/-- Printing a tree in a role that it fits warns of nothing. -/
def Quiet (t : Tree Span) : Prop :=
  ∀ role out, role.fits t.kind = true → (t.write role out).warnings = out.warnings

theorem warnings_writeAll {sep : Separator} {role : Role} :
    ∀ {first : Bool} {ts : List (Tree Span)} (out : Output),
      (∀ t ∈ ts, t.Quiet) → (∀ t ∈ ts, role.fits t.kind = true) →
      (writeAll sep role first ts out).warnings = out.warnings
  | _, [], out, _, _ => by simp [writeAll]
  | first, t :: ts, out, hq, hf => by
    rw [writeAll, warnings_writeAll _ (fun t ht => hq t (List.mem_cons_of_mem _ ht))
      (fun t ht => hf t (List.mem_cons_of_mem _ ht)),
      hq t List.mem_cons_self _ _ (hf t List.mem_cons_self)]
    split <;> rfl

theorem warnings_writeMaybe {before : String} {role : Role} {t? : Option (Tree Span)}
    (out : Output) (hq : ∀ t ∈ t?.toList, t.Quiet)
    (hf : ∀ t ∈ t?.toList, role.fits t.kind = true) :
    (writeMaybe before role t? out).warnings = out.warnings := by
  cases t? with
  | none => simp [writeMaybe]
  | some t => simp [writeMaybe, hq t (by simp) role _ (hf t (by simp))]

theorem warnings_foldl_write : ∀ (texts : List String) (out : Output),
    (texts.foldl Output.write out).warnings = out.warnings
  | [], _ => rfl
  | s :: texts, out => warnings_foldl_write texts (out.write s)

theorem warnings_writeTemplate : ∀ {ts : List (Tree Span)} {texts : List String}
    (out : Output), (∀ t ∈ ts, t.Quiet) → (∀ t ∈ ts, t.kind.isExpression = true) →
    (writeTemplate ts texts out).warnings = out.warnings
  | [], texts, out, _, _ => by simp [writeTemplate, warnings_foldl_write]
  | _ :: _, [], out, _, _ => by simp [writeTemplate]
  | t :: ts, s :: texts, out, hq, hf => by
    rw [writeTemplate, warnings_writeTemplate _ (fun t ht => hq t (List.mem_cons_of_mem _ ht))
      (fun t ht => hf t (List.mem_cons_of_mem _ ht)), Output.warnings_between,
      hq t List.mem_cons_self (.expression _) _ (hf t List.mem_cons_self)]
    rfl

theorem all_map_kind {σ : Type} {ts : List (Tree σ)} {p : Kind (Tree σ) → Bool} :
    (ts.map kind).all p = true ↔ ∀ t ∈ ts, p t.kind = true := by
  simp [List.all_map]

theorem option_all_map_kind {σ : Type} {t? : Option (Tree σ)} {p : Kind (Tree σ) → Bool} :
    (t?.map kind).all p = true ↔ ∀ t ∈ t?.toList, p t.kind = true := by
  cases t? <;> simp

theorem isParam_of_paramsFormed {σ : Type} {params : List (Tree σ)}
    (h : Kind.paramsFormed (params.map kind) = true) : ∀ p ∈ params, p.kind.isParam = true := by
  simp only [Kind.paramsFormed, Bool.and_eq_true, List.all_map, List.all_eq_true,
    Function.comp_apply] at h
  exact h.1

/-- Every child of a well-formed node is of a category that the node admits. -/
theorem category_mem_admits {σ : Type} {k : Kind (Tree σ)} (h : (k.map kind).formed = true) :
    ∀ c ∈ k.children, c.kind.category ∈ k.admits := by
  have hlist : ∀ {p : Kind.Category} {l : List (Tree σ)},
      (l.map kind).all (fun k => k.category = p) = true → ∀ c ∈ l, c.kind.category ∈ [p] :=
    fun hl c hc => by simpa using all_map_kind.mp hl c hc
  have hoption : ∀ {p : Kind.Category} {l : Option (Tree σ)},
      (l.map kind).all (fun k => k.category = p) = true → ∀ c ∈ l.toList, c.kind.category ∈ [p] :=
    fun hl c hc => by simpa using option_all_map_kind.mp hl c hc
  have hparams : ∀ {l : List (Tree σ)}, Kind.paramsFormed (l.map kind) = true →
      ∀ c ∈ l, c.kind.category = .param :=
    fun hl c hc => by simpa [Kind.isParam] using isParam_of_paramsFormed hl c hc
  have hstatement : ∀ {l : Kind (Tree σ)}, l.isBlock = true → l.category = .statement :=
    fun hl => by simpa [Kind.isStatement] using Kind.isStatement_of_isBlock hl
  have hexpression : ∀ {l : Kind (Tree σ)}, l.isExpression = true → l.category = .expression :=
    fun hl => by simpa [Kind.isExpression] using hl
  cases k with
  | program body | block body => exact hlist h
  | array elements => exact hlist h
  | object properties => exact hlist h
  | returnStatement argument => exact hoption h
  | declaration _ declarators =>
    simp only [Kind.map, Kind.formed, Bool.and_eq_true] at h
    exact hlist h.2
  | declarator _ init =>
    simp only [Kind.map, Kind.formed, Bool.and_eq_true] at h
    exact hoption h.2
  | param _ fallback _ =>
    simp only [Kind.map, Kind.formed, Bool.and_eq_true] at h
    exact hoption h.1.2
  | template _ expressions =>
    simp only [Kind.map, Kind.formed, Bool.and_eq_true] at h
    exact hlist h.2
  | functionDeclaration _ params body | functionExpression _ params body =>
    simp only [Kind.map, Kind.formed, Bool.and_eq_true] at h
    intro c hc
    rcases List.mem_append.mp hc with hc | hc
    · simp [Kind.admits, hparams h.1.2 c hc]
    · rw [List.mem_singleton.mp hc]
      simp [Kind.admits, hstatement h.2]
  | arrowFunction params body =>
    simp only [Kind.map, Kind.formed, Bool.and_eq_true, Bool.or_eq_true] at h
    intro c hc
    rcases List.mem_append.mp hc with hc | hc
    · simp [Kind.admits, hparams h.1 c hc]
    · rw [List.mem_singleton.mp hc]
      rcases h.2 with hb | he
      · simp [Kind.admits, hstatement hb]
      · simp [Kind.admits, hexpression he]
  | ifStatement test consequent alternate =>
    simp only [Kind.map, Kind.formed, Bool.and_eq_true] at h
    intro c hc
    simp only [Kind.children, List.mem_cons] at hc
    rcases hc with rfl | rfl | hc
    · simp [Kind.admits, hexpression h.1.1]
    · simp [Kind.admits, show c.kind.category = .statement by simpa [Kind.isStatement] using h.1.2]
    · exact List.mem_cons_of_mem _ (hoption h.2 c hc)
  | property key value shorthand method =>
    simp only [Kind.map, Kind.formed, Bool.and_eq_true] at h
    have hvalue := hexpression (Kind.isExpression_of_valueFormed h.2)
    simp [Kind.children, Kind.admits, hvalue]
  | call callee arguments =>
    simp only [Kind.map, Kind.formed, Bool.and_eq_true] at h
    exact List.forall_mem_cons.mpr ⟨by simp [Kind.admits, hexpression h.1], hlist h.2⟩
  | assign target value =>
    simp only [Kind.map, Kind.formed, Bool.and_eq_true] at h
    simp [Kind.children, Kind.admits, hexpression (Kind.isExpression_of_isPlace h.1),
      hexpression h.2]
  | _ =>
    simp only [Kind.map, Kind.formed, Bool.and_eq_true, Kind.isExpression, Kind.isStatement,
      decide_eq_true_eq] at h
    simp [Kind.children, Kind.admits, h]

theorem warnings_writeParams {params : List (Tree Span)} (hq : ∀ p ∈ params, p.Quiet)
    (hf : ∀ p ∈ params, Role.param.fits p.kind = true) (out : Output) :
    (writeParams params out).warnings = out.warnings := by
  rw [writeParams_eq]
  exact warnings_writeAll _ hq hf

theorem warnings_writeBlock {body : List (Tree Span)} (hq : ∀ t ∈ body, t.Quiet)
    (hf : ∀ t ∈ body, Role.statement.fits t.kind = true) (out : Output) :
    (writeBlock body out).warnings = out.warnings := by
  cases body with
  | nil => rfl
  | cons t ts =>
    rw [writeBlock_cons]
    exact warnings_writeAll _ hq hf

theorem warnings_writeBraced {t : Tree Span} (hq : t.Quiet) (hf : Role.statement.fits t.kind = true)
    (out : Output) : (writeBraced t out).warnings = out.warnings := by
  rw [writeBraced_eq]
  split
  · exact hq .statement out hf
  · exact warnings_writeBlock (List.forall_mem_singleton.mpr hq) (List.forall_mem_singleton.mpr hf) out

theorem warnings_signature {params : List (Tree Span)} {body : Tree Span}
    (hq : ∀ c ∈ params ++ [body], c.Quiet) (hparams : Kind.paramsFormed (params.map kind) = true)
    (hbody : body.kind.isBlock = true) (out : Output) :
    (write body .statement ((writeParams params out).write " ")).warnings = out.warnings := by
  rw [hq body (by simp) .statement _ (Kind.isStatement_of_isBlock hbody), Output.warnings_write,
    warnings_writeParams (fun p hp => hq p (by simp [hp])) (isParam_of_paramsFormed hparams)]

theorem warnings_writeProperty {span : Span} {key : PropertyKey} {value : Tree Span}
    {shorthand method : Bool}
    (hvalue : Kind.valueFormed key value.kind shorthand method = true) (hformed : value.Formed)
    (hq : value.Quiet) (hm : ∀ c ∈ value.kind.children, c.Quiet) (out : Output) :
    (writeOwn span (.property key value shorthand method) out).warnings = out.warnings := by
  rw [writeOwn]
  cases shorthand <;> cases method <;>
    simp only [Kind.valueFormed, Bool.and_eq_true, decide_eq_true_eq, Bool.false_eq_true] at hvalue
  · simp [hq (.expression Precedence.assign) _ hvalue]
  · obtain ⟨a, k⟩ := value
    cases k <;> try cases hvalue
    rename_i name params body
    have here := (formed_node.mp hformed).1
    simp only [Kind.map, Kind.formed, Bool.and_eq_true] at here
    exact warnings_signature hm here.1.2 here.2 _
  · rw [if_pos (by simp [← hvalue.1, hvalue.2])]
    rfl

theorem warnings_writeOwn {span : Span} {k : Kind (Tree Span)} (here : (k.map kind).formed = true)
    (below : ∀ c ∈ k.children, c.Formed) (hq : ∀ c ∈ k.children, c.Quiet)
    (hm : ∀ c ∈ k.children, ∀ d ∈ c.kind.children, d.Quiet) (out : Output) :
    (writeOwn span k out).warnings = out.warnings := by
  cases k with
  | program body =>
    exact warnings_writeAll out hq (all_map_kind.mp here)
  | declaration keyword declarators =>
    simp only [Kind.map, Kind.formed, Bool.and_eq_true] at here
    exact warnings_writeAll _ hq (all_map_kind.mp here.2)
  | declarator name init =>
    simp only [Kind.map, Kind.formed, Bool.and_eq_true] at here
    exact warnings_writeMaybe _ hq (option_all_map_kind.mp here.2)
  | functionDeclaration name params body | functionExpression name params body =>
    simp only [Kind.map, Kind.formed, Bool.and_eq_true] at here
    exact warnings_signature hq here.1.2 here.2 _
  | returnStatement argument =>
    exact warnings_writeMaybe _ hq (option_all_map_kind.mp here)
  | ifStatement test consequent alternate =>
    simp only [Kind.map, Kind.formed, Bool.and_eq_true] at here
    have htest := hq test (by simp [Kind.children]) (.expression Precedence.assign)
    have hcons := hq consequent (by simp [Kind.children]) .statement
    cases alternate with
    | none =>
      rw [writeOwn, hcons _ here.1.2, Output.warnings_between, htest _ here.1.1]
      rfl
    | some alternate =>
      rw [writeOwn, hq alternate (by simp [Kind.children]) .statement _ here.2, Output.warnings_write,
        warnings_writeBraced (hq consequent (by simp [Kind.children])) here.1.2, Output.warnings_between,
        htest _ here.1.1]
      rfl
  | whileStatement test body =>
    simp only [Kind.map, Kind.formed, Bool.and_eq_true] at here
    rw [writeOwn, hq body (by simp [Kind.children]) .statement _ here.2, Output.warnings_between,
      hq test (by simp [Kind.children]) (.expression _) _ here.1]
    rfl
  | block body => exact warnings_writeBlock hq (all_map_kind.mp here) out
  | expressionStatement expression =>
    rw [writeOwn, Output.writeAsStatement, Output.warnings_write, Output.warnings_parenthesizeIf]
    exact hq expression (by simp [Kind.children]) (.expression _) _ here
  | param name fallback rest =>
    simp only [Kind.map, Kind.formed, Bool.and_eq_true] at here
    have hfallback : ∀ t ∈ fallback.toList, (Role.expression Precedence.assign).fits t.kind = true :=
      option_all_map_kind.mp here.1.2
    rw [writeOwn, warnings_writeMaybe _ hq hfallback, Output.warnings_write]
    split <;> rfl
  | template texts expressions =>
    simp only [Kind.map, Kind.formed, Bool.and_eq_true] at here
    exact warnings_writeTemplate _ hq (all_map_kind.mp here.2)
  | array elements =>
    exact warnings_writeAll _ hq (all_map_kind.mp here)
  | object properties =>
    cases properties with
    | nil => rfl
    | cons t ts =>
      exact warnings_writeAll _ hq (all_map_kind.mp here)
  | property key value shorthand method =>
    simp only [Kind.map, Kind.formed, Bool.and_eq_true] at here
    have hmem : value ∈ (Kind.property key value shorthand method).children := by
      simp [Kind.children]
    exact warnings_writeProperty here.2 (below value hmem) (hq value hmem) (hm value hmem) out
  | arrowFunction params body =>
    simp only [Kind.map, Kind.formed, Bool.and_eq_true] at here
    have hbody := hq body (by simp [Kind.children])
    have hparams : ∀ p ∈ params, p.Quiet := fun p hp => hq p (by simp [Kind.children, hp])
    have hfits : ∀ p ∈ params, Role.param.fits p.kind = true := isParam_of_paramsFormed here.1
    cases hb : body.kind.isBlock with
    | true =>
      obtain ⟨s, k⟩ := body
      obtain ⟨body, rfl⟩ := isBlock_eq_true hb
      rw [writeOwn, hbody .statement _ rfl, Output.warnings_write, warnings_writeParams hparams hfits]
    | false =>
      have he : body.kind.isExpression = true := by simpa [hb] using here.2
      rw [writeOwn_arrowFunction hb, Output.warnings_parenthesizeIf, hbody (.expression _) _ he,
        Output.warnings_write, warnings_writeParams hparams hfits]
  | member base name =>
    simp only [Kind.map, Kind.formed, Bool.and_eq_true] at here
    exact hq base (by simp [Kind.children]) (.expression _) _ here.1
  | index base key =>
    simp only [Kind.map, Kind.formed, Bool.and_eq_true] at here
    rw [writeOwn, Output.warnings_between, hq key (by simp [Kind.children]) (.expression _) _ here.2]
    exact hq base (by simp [Kind.children]) (.expression _) _ here.1
  | call callee arguments =>
    simp only [Kind.map, Kind.formed, Bool.and_eq_true] at here
    rw [writeOwn, Output.warnings_between,
      warnings_writeAll _ (fun c hc => hq c (by simp [Kind.children, hc])) (all_map_kind.mp here.2)]
    exact hq callee (by simp [Kind.children]) (.expression _) _ here.1
  | binary op left right =>
    simp only [Kind.map, Kind.formed, Bool.and_eq_true] at here
    rw [writeOwn, hq right (by simp [Kind.children]) (.expression _) _ here.2]
    exact hq left (by simp [Kind.children]) (.expression _) _ here.1
  | unary op argument =>
    exact hq argument (by simp [Kind.children]) (.expression _) _ here
  | assign target value =>
    simp only [Kind.map, Kind.formed, Bool.and_eq_true] at here
    rw [writeOwn, hq value (by simp [Kind.children]) (.expression _) _ here.2]
    exact hq target (by simp [Kind.children]) (.expression _) _ (Kind.isExpression_of_isPlace here.1)
  | empty | number raw | string raw | boolean value | null | identifier name | this => rfl

theorem Formed.quiet {t : Tree Span} (h : t.Formed) :
    t.Quiet ∧ ∀ c ∈ t.kind.children, c.Quiet := by
  induction t using Tree.induction_on with
  | node a k ih =>
    obtain ⟨here, below⟩ := formed_node.mp h
    have hq : ∀ c ∈ k.children, c.Quiet := fun c hc => (ih c hc (below c hc)).1
    refine ⟨fun role out hrole => ?_, hq⟩
    rw [write]
    exact Role.warnings_place hrole (warnings_writeOwn here below hq
      (fun c hc => (ih c hc (below c hc)).2)) out

theorem warnings_foldl_statements : ∀ (body : List (Tree Span)) (out : Output),
    (∀ s ∈ body, s.Quiet) → (∀ s ∈ body, s.kind.isStatement = true) →
    (body.foldl (fun out s => (s.write .statement out).write "\n") out).warnings = out.warnings
  | [], _, _, _ => rfl
  | s :: body, out, hq, hf => by
    rw [List.foldl_cons, warnings_foldl_statements body _ (fun t ht => hq t (List.mem_cons_of_mem _ ht))
      (fun t ht => hf t (List.mem_cons_of_mem _ ht)), Output.warnings_write]
    exact hq s List.mem_cons_self .statement out (hf s List.mem_cons_self)

/-- A well-formed program is printed without a warning. -/
theorem warnings_print_program {a : Span} {body : List (Tree Span)}
    (h : (node a (.program body)).Formed) : (node a (.program body)).print.warnings = [] :=
  warnings_foldl_statements body {} h.quiet.2 (all_map_kind.mp (formed_node.mp h).1)

end Tree

end Downlevel
