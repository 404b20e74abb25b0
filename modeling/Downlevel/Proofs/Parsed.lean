import Downlevel.Proofs.Delivers
import Downlevel.Proofs.Opening

/-!
# What is read is well-formed

Every value that a rule of the grammar yields fits where the grammar lets it stand (`Rule.Sound`), so
a text that is read as a program gives a well-formed tree (`parseRaw_formed`). What the grammar itself
does not rule out, putting a tree together does: assignments to what is no place, and parameters in
the wrong order.
-/

namespace Downlevel

open Downlevel.Tree (node kind formed_node all_map_kind option_all_map_kind)

/-! ## Lexemes -/

namespace Lexeme

variable {cs : List Char} {n : Nat}

theorem isNumber_take (h : number cs = some n) : isNumber (String.ofList (cs.take n)) = true := by
  simp [isNumber, number_take h]

theorem isName_take (h : name cs = some n) : isName (String.ofList (cs.take n)) = true := by
  simp [isName, (name_take h).1]

theorem isIdentifier_take (h : identifier cs = some n) :
    isIdentifier (String.ofList (cs.take n)) = true := by
  simp [isIdentifier, identifier_take h]

theorem isStringContents_take (h : string cs = some n) :
    isStringContents (String.ofList (cs.take n).tail.dropLast) = true := by
  obtain ⟨raw, htake, hraw, -⟩ := string_eq_some h
  simp [isStringContents, htake, hraw]

theorem isTemplateText_take (h : templateChars cs = some n) :
    isTemplateText (String.ofList (cs.take n)) = true := by
  obtain ⟨rfl, -⟩ := templateChars_eq_some h
  simp [isTemplateText, templateText_take, min_eq_left (templateText_le cs)]

end Lexeme

/-! ## Values that are there -/

/-- If there is a value, it satisfies `Q`. -/
def Okay {α : Type} (v : Except Fault α) (Q : α → Prop) : Prop :=
  ∀ a, v = .ok a → Q a

namespace Okay

variable {α β : Type} {Q : α → Prop} {R : β → Prop}

theorem pure {a : α} (h : Q a) : Okay (Pure.pure a) Q := by
  rintro _ ⟨⟩
  exact h

theorem bind {v : Except Fault α} {f : α → Except Fault β} (h : Okay v Q)
    (hf : ∀ a, Q a → Okay (f a) R) : Okay (v >>= f) R := by
  cases v with
  | error e => rintro _ ⟨⟩
  | ok a => exact hf a (h a rfl)

theorem mono {R : α → Prop} {v : Except Fault α} (h : Okay v Q) (hQ : ∀ a, Q a → R a) :
    Okay v R :=
  fun a ha => hQ a (h a ha)

theorem and {R : α → Prop} {v : Except Fault α} (h : Okay v Q) (h' : Okay v R) :
    Okay v fun a => Q a ∧ R a :=
  fun a ha => ⟨h a ha, h' a ha⟩

theorem all {Q : RawTree → Prop} {vs : List Built} (h : ∀ v ∈ vs, Okay v Q) :
    Okay (Build.all vs) fun ts => ∀ t ∈ ts, Q t := by
  induction vs with
  | nil => exact .pure (by simp)
  | cons v vs ih =>
    rw [Build.all, List.mapM_cons]
    refine (h v List.mem_cons_self).bind fun t ht => ?_
    refine (ih fun v hv => h v (List.mem_cons_of_mem _ hv)).bind fun ts hts => ?_
    exact .pure (List.forall_mem_cons.mpr ⟨ht, hts⟩)

theorem length_all {vs : List Built} : Okay (Build.all vs) fun ts => ts.length = vs.length := by
  induction vs with
  | nil => exact .pure rfl
  | cons v vs ih =>
    rw [Build.all, List.mapM_cons]
    refine bind (Q := fun _ => True) (fun _ _ => trivial) fun t _ => ?_
    exact ih.bind fun ts hts => .pure (by simp [hts])

theorem maybe {Q : RawTree → Prop} {v? : Option Built} (h : ∀ v ∈ v?, Okay v Q) :
    Okay (Build.maybe v?) fun t? => ∀ t ∈ t?.toList, Q t := by
  cases v? with
  | none => exact .pure (by simp)
  | some v => exact (h v rfl).bind fun t ht => .pure (by simpa using ht)

end Okay

/-- A well-formed tree of a kind that may stand where `p` says. -/
def Fits (p : Kind RawTree → Bool) (t : RawTree) : Prop :=
  t.Formed ∧ p t.kind = true

theorem Fits.mono {p q : Kind RawTree → Bool} {t : RawTree} (h : Fits p t)
    (hpq : p t.kind = true → q t.kind = true) : Fits q t :=
  ⟨h.1, hpq h.2⟩

/-- A node fits if it is well-formed by itself and its children are. -/
theorem Fits.node {p : Kind RawTree → Bool} {range : Range} {k : Kind RawTree}
    (here : (k.map kind).formed = true) (below : ∀ c ∈ k.children, c.Formed) (hp : p k = true) :
    Fits p (node range k) :=
  ⟨formed_node.mpr ⟨here, below⟩, hp⟩

def Kind.isProgram {α : Type} (k : Kind α) : Bool :=
  k.category = .program

/-- Well-formed trees that make up the parameters of a function. -/
def ParamsFit (ts : List RawTree) : Prop :=
  (∀ t ∈ ts, t.Formed) ∧ Kind.paramsFormed (ts.map kind) = true

def ParamText.Sound (p : ParamText) : Prop :=
  Lexeme.isIdentifier p.name = true ∧ ∀ v ∈ p.fallback, Okay v (Fits Kind.isExpression)

def Suffix.Sound : Suffix → Prop
  | call _ arguments => ∀ v ∈ arguments, Okay v (Fits Kind.isExpression)
  | member _ name => Lexeme.isName name = true
  | index _ key => Okay key (Fits Kind.isExpression)

/-- Pieces of a template: no text comes directly after another, nor first unless `fresh`. -/
def PartsFit : (fresh : Bool) → List TemplatePart → Prop
  | _, [] => True
  | fresh, .chars text :: parts =>
    fresh = true ∧ Lexeme.isTemplateText text = true ∧ PartsFit false parts
  | _, .substitution v :: parts => Okay v (Fits Kind.isExpression) ∧ PartsFit true parts

theorem PartsFit.fresh : ∀ {fresh : Bool} {parts : List TemplatePart}, PartsFit fresh parts →
    PartsFit true parts
  | _, [], _ => trivial
  | _, .chars _ :: _, h => ⟨rfl, h.2⟩
  | _, .substitution _ :: _, h => h

/-! ## Trees put together from what fits -/

namespace Build

variable {range : Range}

theorem okay_program {body : List Built} (h : ∀ v ∈ body, Okay v (Fits Kind.isStatement)) :
    Okay (program body range) (Fits Kind.isProgram) :=
  (Okay.all h).bind fun _ hts =>
    .pure (.node (all_map_kind.mpr fun t ht => (hts t ht).2) (fun t ht => (hts t ht).1) rfl)

theorem okay_declaration {keyword : DeclKind} {first : Built} {more : List Built}
    (h : ∀ v ∈ first :: more, Okay v (Fits Kind.isDeclarator)) :
    Okay (declaration keyword (first :: more) range) (Fits Kind.isStatement) := by
  refine ((Okay.all h).and Okay.length_all).bind ?_
  rintro ts ⟨hts, hlen⟩
  refine .pure (.node ?_ (fun t ht => (hts t ht).1) rfl)
  have hne : ts ≠ [] := by
    rintro rfl
    simp at hlen
  simpa [Kind.map, Kind.formed, hne] using fun t ht => (hts t ht).2

theorem okay_declarator {name : Token} {init : Option Built}
    (hname : Lexeme.isIdentifier name.text = true)
    (h : ∀ v ∈ init, Okay v (Fits Kind.isExpression)) :
    Okay (declarator name init range) (Fits Kind.isDeclarator) :=
  (Okay.maybe h).bind fun _ ht =>
    .pure (.node (Bool.and_eq_true_iff.mpr ⟨hname, option_all_map_kind.mpr fun t hm => (ht t hm).2⟩)
      (fun t hm => (ht t hm).1) rfl)

theorem paramsFormed_cons {α : Type} (k : Kind α) (ks : List (Kind α)) :
    Kind.paramsFormed (k :: ks)
      = (k.isParam && (ks.isEmpty || !k.isRest) && Kind.paramsFormed ks) := by
  cases ks with
  | nil => simp [Kind.paramsFormed]
  | cons l ks =>
    simp only [Kind.paramsFormed, List.dropLast_cons_cons, List.all_cons, List.isEmpty_cons,
      Bool.false_or]
    ac_rfl

theorem okay_params {ps : List ParamText} (h : ∀ p ∈ ps, p.Sound) :
    Okay (params ps) fun ts => ParamsFit ts ∧ ts.isEmpty = ps.isEmpty := by
  induction ps with
  | nil => exact .pure ⟨⟨by simp, rfl⟩, rfl⟩
  | cons p ps ih =>
    obtain ⟨hname, hfallback⟩ := h p List.mem_cons_self
    rw [params]
    refine (Okay.maybe hfallback).bind fun fallback hf => ?_
    dsimp only
    split
    · rintro _ ⟨⟩
    rename_i hlast
    split
    · rintro _ ⟨⟩
    rename_i hplain
    refine (ih fun q hq => h q (List.mem_cons_of_mem _ hq)).bind ?_
    rintro ts ⟨⟨hformed, hparams⟩, hempty⟩
    have hparam : (Tree.node p.range (.param p.name fallback p.rest)).Formed := by
      refine formed_node.mpr ⟨?_, fun t ht => (hf t ht).1⟩
      have hkinds : (fallback.map kind).all Kind.isExpression = true :=
        option_all_map_kind.mpr fun t ht => (hf t ht).2
      simp [Kind.map, Kind.formed, hname, hkinds, hplain]
    refine .pure ⟨⟨List.forall_mem_cons.mpr ⟨hparam, hformed⟩, ?_⟩, rfl⟩
    have hrest : (ps.isEmpty || !p.rest) = true := by
      cases hp : p.rest <;> simp_all
    rw [List.map_cons, paramsFormed_cons, hparams, List.isEmpty_map, hempty]
    simpa [Kind.isParam, Kind.category, Kind.isRest] using hrest

theorem forall_params_body {ps : List RawTree} {body : RawTree} {p : Kind RawTree → Bool}
    (hps : ParamsFit ps) (hbody : Fits p body) : ∀ c ∈ ps ++ [body], c.Formed := by
  intro c hc
  rcases List.mem_append.mp hc with hc | hc
  · exact hps.1 c hc
  · rw [List.mem_singleton.mp hc]
    exact hbody.1

theorem okay_functionDeclaration {name : Token} {ps : Except Fault (List RawTree)} {body : Built}
    (hname : Lexeme.isIdentifier name.text = true) (hps : Okay ps ParamsFit)
    (hbody : Okay body (Fits Kind.isBlock)) :
    Okay (functionDeclaration name ps body range) (Fits Kind.isStatement) :=
  hps.bind fun ps hps => hbody.bind fun body hbody =>
    .pure (.node (by simp [Kind.map, Kind.formed, hname, hps.2, hbody.2])
      (forall_params_body hps hbody) rfl)

theorem okay_returnStatement {argument : Option Built}
    (h : ∀ v ∈ argument, Okay v (Fits Kind.isExpression)) :
    Okay (returnStatement argument range) (Fits Kind.isStatement) :=
  (Okay.maybe h).bind fun _ ht =>
    .pure (.node (option_all_map_kind.mpr fun t hm => (ht t hm).2) (fun t hm => (ht t hm).1) rfl)

theorem okay_ifStatement {test consequent : Built} {alternate : Option Built}
    (htest : Okay test (Fits Kind.isExpression)) (hcons : Okay consequent (Fits Kind.isStatement))
    (halt : ∀ v ∈ alternate, Okay v (Fits Kind.isStatement)) :
    Okay (ifStatement test consequent alternate range) (Fits Kind.isStatement) := by
  refine htest.bind fun test htest => hcons.bind fun consequent hcons =>
    (Okay.maybe halt).bind fun alternate halt => .pure (.node ?_ ?_ rfl)
  · have hkinds : (alternate.map kind).all Kind.isStatement = true :=
      option_all_map_kind.mpr fun t ht => (halt t ht).2
    simp [Kind.map, Kind.formed, htest.2, hcons.2, hkinds]
  · exact List.forall_mem_cons.mpr
      ⟨htest.1, List.forall_mem_cons.mpr ⟨hcons.1, fun t ht => (halt t ht).1⟩⟩

theorem okay_whileStatement {test body : Built} (htest : Okay test (Fits Kind.isExpression))
    (hbody : Okay body (Fits Kind.isStatement)) :
    Okay (whileStatement test body range) (Fits Kind.isStatement) :=
  htest.bind fun test htest => hbody.bind fun body hbody =>
    .pure (.node (by simp [Kind.map, Kind.formed, htest.2, hbody.2])
      (by simp [Kind.children, htest.1, hbody.1]) rfl)

theorem okay_block {body : List Built} (h : ∀ v ∈ body, Okay v (Fits Kind.isStatement)) :
    Okay (block body range) (Fits Kind.isBlock) :=
  (Okay.all h).bind fun _ hts =>
    .pure (.node (all_map_kind.mpr fun t ht => (hts t ht).2) (fun t ht => (hts t ht).1) rfl)

theorem okay_expressionStatement {expression : Built}
    (h : Okay expression (Fits Kind.isExpression)) :
    Okay (expressionStatement expression range) (Fits Kind.isStatement) :=
  h.bind fun _ he => .pure (.node he.2 (by simpa [Kind.children] using he.1) rfl)

/-! ### Expressions -/

theorem okay_assignment {target : Built} {value : Option Built}
    (htarget : Okay target (Fits Kind.isExpression))
    (hvalue : ∀ v ∈ value, Okay v (Fits Kind.isExpression)) :
    Okay (assignment target value range) (Fits Kind.isExpression) := by
  cases value with
  | none => exact htarget
  | some value =>
    refine htarget.bind fun target htarget => ?_
    dsimp only
    split
    · rintro _ ⟨⟩
    rename_i hplace
    refine (hvalue value rfl).bind fun value hvalue => .pure (.node ?_ ?_ rfl)
    · have hplace : target.kind.isPlace = true := by simpa using hplace
      simp [Kind.map, Kind.formed, hplace, hvalue.2]
    · simp [Kind.children, htarget.1, hvalue.1]

theorem okay_bareParam {name : Token} (hname : Lexeme.isIdentifier name.text = true) :
    Okay (bareParam name) ParamsFit := by
  refine .pure ⟨?_, rfl⟩
  simp [formed_node, Kind.map, Kind.formed, Kind.children, hname]

theorem okay_arrowFunction {ps : Except Fault (List RawTree)} {body : Built}
    (hps : Okay ps ParamsFit) (hbody : Okay body (Fits fun k => k.isBlock || k.isExpression)) :
    Okay (arrowFunction ps body range) (Fits Kind.isExpression) :=
  hps.bind fun _ hps => hbody.bind fun _ hbody =>
    .pure (.node (Bool.and_eq_true_iff.mpr ⟨hps.2, hbody.2⟩) (forall_params_body hps hbody) rfl)

theorem okay_binary {left right : Built} {op : OperatorText}
    (hleft : Okay left (Fits Kind.isExpression)) (hright : Okay right (Fits Kind.isExpression)) :
    Okay (binary left (op, right)) (Fits Kind.isExpression) :=
  hleft.bind fun left hleft => Okay.bind (fun _ _ => trivial) fun op _ =>
    hright.bind fun right hright =>
      .pure (.node (by simp [Kind.map, Kind.formed, hleft.2, hright.2])
        (by simp [Kind.children, hleft.1, hright.1]) rfl)

theorem okay_binaryChain {first : Built} {steps : List (OperatorText × Built)}
    (hfirst : Okay first (Fits Kind.isExpression))
    (hsteps : ∀ s ∈ steps, Okay s.2 (Fits Kind.isExpression)) :
    Okay (binaryChain first steps) (Fits Kind.isExpression) := by
  unfold binaryChain
  induction steps generalizing first with
  | nil => exact hfirst
  | cons s steps ih =>
    exact ih (okay_binary hfirst (hsteps s List.mem_cons_self))
      fun s hs => hsteps s (List.mem_cons_of_mem _ hs)

theorem okay_exponent {base : Built} {power : Option Built}
    (hbase : Okay base (Fits Kind.isExpression))
    (hpower : ∀ v ∈ power, Okay v (Fits Kind.isExpression)) :
    Okay (exponent base power range) (Fits Kind.isExpression) := by
  cases power with
  | none => exact hbase
  | some power =>
    refine hbase.bind fun base hbase => (hpower power rfl).bind fun power hpower =>
      .pure (.node ?_ ?_ rfl)
    · simp [Kind.map, Kind.formed, hbase.2, hpower.2]
    · simp [Kind.children, hbase.1, hpower.1]

theorem okay_unary {op : UnaryOp} {argument : Built} (h : Okay argument (Fits Kind.isExpression)) :
    Okay (unary op argument range) (Fits Kind.isExpression) :=
  h.bind fun _ he => .pure (.node he.2 (by simpa [Kind.children] using he.1) rfl)

theorem okay_suffixed {base : Built} {suffix : Suffix} (hbase : Okay base (Fits Kind.isExpression))
    (hsuffix : suffix.Sound) : Okay (suffixed base suffix) (Fits Kind.isExpression) := by
  refine hbase.bind fun base hbase => ?_
  cases suffix with
  | call range arguments =>
    refine (Okay.all hsuffix).bind fun ts hts => .pure (.node ?_ ?_ rfl)
    · have hkinds : (ts.map kind).all Kind.isExpression = true :=
        all_map_kind.mpr fun t ht => (hts t ht).2
      simp [Kind.map, Kind.formed, hbase.2, hkinds]
    · exact List.forall_mem_cons.mpr ⟨hbase.1, fun t ht => (hts t ht).1⟩
  | member range name =>
    exact .pure (.node (Bool.and_eq_true_iff.mpr ⟨hbase.2, hsuffix⟩)
      (by simpa [Kind.children] using hbase.1) rfl)
  | index range key =>
    refine Okay.bind hsuffix fun key hkey => .pure (.node ?_ ?_ rfl)
    · simp [Kind.map, Kind.formed, hbase.2, hkey.2]
    · simp [Kind.children, hbase.1, hkey.1]

theorem okay_postfixChain {first : Built} {suffixes : List Suffix}
    (hfirst : Okay first (Fits Kind.isExpression)) (hsuffixes : ∀ s ∈ suffixes, s.Sound) :
    Okay (postfixChain first suffixes) (Fits Kind.isExpression) := by
  unfold postfixChain
  induction suffixes generalizing first with
  | nil => exact hfirst
  | cons s suffixes ih =>
    exact ih (okay_suffixed hfirst (hsuffixes s List.mem_cons_self))
      fun s hs => hsuffixes s (List.mem_cons_of_mem _ hs)

theorem okay_functionExpression {name : Option Token} {ps : Except Fault (List RawTree)}
    {body : Built} (hname : ∀ t ∈ name, Lexeme.isIdentifier t.text = true)
    (hps : Okay ps ParamsFit) (hbody : Okay body (Fits Kind.isBlock)) :
    Okay (functionExpression name ps body range) (Fits Kind.isExpression) := by
  have hname : (name.map Token.text).all Lexeme.isIdentifier = true := by
    cases name with
    | none => rfl
    | some t => exact hname t rfl
  exact hps.bind fun ps hps => hbody.bind fun body hbody =>
    .pure (.node (by simp [Kind.map, Kind.formed, hname, hps.2, hbody.2])
      (forall_params_body hps hbody) rfl)

theorem okay_array {elements : List Built} (h : ∀ v ∈ elements, Okay v (Fits Kind.isExpression)) :
    Okay (array elements range) (Fits Kind.isExpression) :=
  (Okay.all h).bind fun _ hts =>
    .pure (.node (all_map_kind.mpr fun t ht => (hts t ht).2) (fun t ht => (hts t ht).1) rfl)

theorem okay_object {properties : List Built}
    (h : ∀ v ∈ properties, Okay v (Fits Kind.isProperty)) :
    Okay (object properties range) (Fits Kind.isExpression) :=
  (Okay.all h).bind fun _ hts =>
    .pure (.node (all_map_kind.mpr fun t ht => (hts t ht).2) (fun t ht => (hts t ht).1) rfl)

theorem okay_methodProperty {key : PropertyKey} {ps : Except Fault (List RawTree)} {body : Built}
    (hkey : key.formed = true) (hps : Okay ps ParamsFit) (hbody : Okay body (Fits Kind.isBlock)) :
    Okay (methodProperty key ps body range) (Fits Kind.isProperty) := by
  refine hps.bind fun ps hps => hbody.bind fun body hbody => .pure (.node ?_ ?_ rfl)
  · simp [Kind.map, Kind.formed, hkey, Kind.valueFormed, Kind.isMethod]
  · have hvalue : (Tree.node range (.functionExpression none ps body)).Formed :=
      formed_node.mpr ⟨by simp [Kind.map, Kind.formed, hps.2, hbody.2],
        forall_params_body hps hbody⟩
    simpa [Kind.children] using hvalue

theorem okay_keyedProperty {key : PropertyKey} {value : Built} (hkey : key.formed = true)
    (hvalue : Okay value (Fits Kind.isExpression)) :
    Okay (keyedProperty key value range) (Fits Kind.isProperty) :=
  hvalue.bind fun _ hvalue =>
    .pure (.node (Bool.and_eq_true_iff.mpr ⟨hkey, hvalue.2⟩)
      (by simpa [Kind.children] using hvalue.1) rfl)

theorem okay_shorthandProperty {name : Token} (hname : Lexeme.isIdentifier name.text = true)
    (hkey : Lexeme.isName name.text = true) :
    Okay (shorthandProperty name range) (Fits Kind.isProperty) := by
  refine .pure (.node ?_ ?_ rfl)
  · simp [Kind.map, Kind.formed, PropertyKey.formed, hkey, Kind.valueFormed, PropertyKey.name,
      Kind.identifierName?]
  · simp [Kind.children, formed_node, Kind.map, Kind.formed, hname]

theorem okay_templateParts {fresh : Bool} {text : String} {parts : List TemplatePart}
    (htext : Lexeme.isTemplateText text = true) (hfresh : fresh = true → text = "")
    (h : PartsFit fresh parts) :
    Okay (templateParts text parts) fun r =>
      r.1.length = r.2.length + 1 ∧ (∀ q ∈ r.1, Lexeme.isTemplateText q = true) ∧
        ∀ t ∈ r.2, Fits Kind.isExpression t := by
  induction parts generalizing fresh text with
  | nil => exact .pure ⟨rfl, by simpa using htext, by simp⟩
  | cons part parts ih =>
    cases part with
    | chars more =>
      obtain ⟨rfl, hmore, hparts⟩ := h
      rw [templateParts, hfresh rfl, String.empty_append]
      exact ih hmore (by simp) hparts
    | substitution value =>
      refine h.1.bind fun value hvalue => (ih (by decide) (fun _ => rfl) h.2).bind ?_
      rintro ⟨texts, values⟩ ⟨hlen, htexts, hvalues⟩
      exact .pure ⟨by simp [hlen], List.forall_mem_cons.mpr ⟨htext, htexts⟩,
        List.forall_mem_cons.mpr ⟨hvalue, hvalues⟩⟩

theorem okay_template {parts : List TemplatePart} (h : PartsFit true parts) :
    Okay (template parts range) (Fits Kind.isExpression) := by
  refine (okay_templateParts (by decide) (fun _ => rfl) h).bind ?_
  rintro ⟨texts, values⟩ ⟨hlen, htexts, hvalues⟩
  refine .pure (.node ?_ (fun t ht => (hvalues t ht).1) rfl)
  have htexts : texts.all Lexeme.isTemplateText = true := List.all_eq_true.mpr htexts
  have hkinds : (values.map kind).all Kind.isExpression = true :=
    all_map_kind.mpr fun t ht => (hvalues t ht).2
  simp only [Kind.map, Kind.formed, List.length_map, htexts, hkinds, Bool.and_true]
  simpa using hlen

end Build

/-! ## The rules -/

/-- What is true of every value that a rule yields. -/
def Rule.Sound : (r : Rule) → r.Value → Prop
  | .endOfInput, _ | .restMarker, _ | .varKeyword, _ | .letKeyword, _ | .constKeyword, _
  | .functionKeyword, _ | .returnKeyword, _ | .ifKeyword, _ | .elseKeyword, _ | .whileKeyword, _
  | .boolean, _ | .null, _ | .this, _ | .declarationKeyword, _ | .orOperator, _ | .andOperator, _
  | .equalityOperator, _ | .relationalOperator, _ | .additiveOperator, _
  | .multiplicativeOperator, _ | .powerOperator, _ | .unaryOperator, _ => True
  | .number, token => Lexeme.isNumber token.text = true
  | .string, token => Lexeme.isStringContents token.text = true
  | .identifier, token => Lexeme.isIdentifier token.text = true
  | .propertyName, token => Lexeme.isName token.text = true
  | .propertyKey, key => key.formed = true
  | .params, v | .arrowParams, v => Okay v ParamsFit
  | .param, p => p.Sound
  | .callArguments, s | .memberSuffix, s | .indexSuffix, s => s.Sound
  | .templateChars, part => ∃ text, part = .chars text ∧ Lexeme.isTemplateText text = true
  | .templateSubstitution, part =>
    ∃ v, part = .substitution v ∧ Okay v (Fits Kind.isExpression)
  | .program, v => Okay v (Fits Kind.isProgram)
  | .block, v => Okay v (Fits Kind.isBlock)
  | .declaration, v | .functionDeclaration, v | .returnStatement, v | .ifStatement, v
  | .whileStatement, v | .emptyStatement, v | .expressionStatement, v =>
    Okay v (Fits Kind.isStatement)
  | .declarator, v => Okay v (Fits Kind.isDeclarator)
  | .methodProperty, v | .keyedProperty, v | .shorthandProperty, v => Okay v (Fits Kind.isProperty)
  | .arrowBody, v => Okay v (Fits fun k => k.isBlock || k.isExpression)
  | .expression, v | .assignment, v | .arrowFunction, v | .logicalOr, v | .logicalAnd, v
  | .equality, v | .relational, v | .additive, v | .multiplicative, v | .exponent, v | .unary, v
  | .postfixChain, v | .functionExpression, v | .array, v | .object, v | .template, v =>
    Okay v (Fits Kind.isExpression)

namespace Phrase

variable {call : (r : Rule) → Cursor → Option (r.Value × Cursor)} {blank : List Char → Nat}

theorem delivers_statement :
    statement.Delivers call blank Rule.Sound fun v => Okay v (Fits Kind.isStatement) :=
  ⟨fun _ h => h, fun _ h => h, fun _ h => h, fun _ h => h, fun _ h => h,
    fun _ h => h.mono fun _ ht => ht.mono Kind.isStatement_of_isBlock, fun _ h => h, fun _ h => h⟩

theorem delivers_property :
    property.Delivers call blank Rule.Sound fun v => Okay v (Fits Kind.isProperty) :=
  ⟨fun _ h => h, fun _ h => h, fun _ h => h⟩

theorem okay_leaf {range : Range} {k : Kind RawTree} (here : (k.map kind).formed = true)
    (below : ∀ c ∈ k.children, c.Formed) (hp : k.isExpression = true) :
    Okay (Build.node range k) (Fits Kind.isExpression) :=
  .pure (.node here below hp)

theorem delivers_primary :
    primary.Delivers call blank Rule.Sound fun v => Okay v (Fits Kind.isExpression) :=
  ⟨fun _ h => h, fun _ h => h, fun _ h => h, fun _ h => okay_leaf h nofun rfl,
    fun _ h => okay_leaf h nofun rfl, fun _ _ => okay_leaf rfl nofun rfl,
    fun _ _ => okay_leaf rfl nofun rfl, fun _ _ => okay_leaf rfl nofun rfl, fun _ h => h,
    fun _ h => h, fun _ h => okay_leaf h nofun rfl⟩

theorem delivers_chain {operand : Phrase Built} {op : Phrase OperatorText}
    (h : operand.Delivers call blank Rule.Sound fun v => Okay v (Fits Kind.isExpression))
    (hop : op.Delivers call blank Rule.Sound fun _ => True) :
    (chain operand op).Delivers call blank Rule.Sound fun v => Okay v (Fits Kind.isExpression) :=
  h.mono fun _ hfirst => ⟨fun step => Okay step.2 (Fits Kind.isExpression),
    hop.mono fun _ _ => h, fun _ hsteps => Build.okay_binaryChain hfirst hsteps⟩

/-- A list of one or more parts separated by commas. -/
theorem delivers_commaList {α : Type} {p : Phrase α} {A : α → Prop}
    {Q : List α → Prop} (h : p.Delivers call blank Rule.Sound A)
    (hQ : ∀ a as, (∀ b ∈ a :: as, A b) → Q (a :: as)) :
    (Peg.commaList p).Delivers call blank Rule.Sound Q :=
  h.mono fun a ha => ⟨A, h, fun as has => hQ a as (List.forall_mem_cons.mpr ⟨ha, has⟩)⟩

theorem forall_mem_some {α : Type} {P : α → Prop} {a : α} (h : P a) : ∀ b ∈ some a, P b := by
  simpa using h

theorem eval_templatePart (c : Cursor) :
    Peg.eval call blank (rule .templateChars <|> rule .templateSubstitution) c
      = (call .templateChars c).or (call .templateSubstitution c) := by
  have hrule : ∀ r, Peg.eval call blank (rule r) c = call r c := by
    intro r
    rw [rule, Peg.eval]
    rcases call r c with _ | ⟨v, c'⟩ <;> rfl
  have hchars := hrule .templateChars
  have hsubst := hrule .templateSubstitution
  simp only [HOrElse.hOrElse, OrElse.orElse, Peg.eval, hchars, hsubst]
  cases call .templateChars c <;> rfl

/-- The rule for template text takes what its lexeme does. -/
def ReadsChars (call : (r : Rule) → Cursor → Option (r.Value × Cursor)) : Prop :=
  ∀ c v c', call .templateChars c = some (v, c') →
    ∃ n, Lexeme.templateChars c.rest = some n ∧ v = .chars (String.ofList (c.rest.take n)) ∧
      c'.rest = c.rest.drop n

/-- Template text goes as far as it can, so no text comes directly after it. -/
theorem partsFit_repeated (hchars : ReadsChars call)
    (hsubst : ∀ c v c', call .templateSubstitution c = some (v, c') →
      Rule.templateSubstitution.Sound v) :
    ∀ n c, PartsFit (0 < Lexeme.templateText c.rest)
      (Peg.repeated (Peg.eval call blank (rule .templateChars <|> rule .templateSubstitution)) n c).1
  | 0, _ => trivial
  | n + 1, c => by
    unfold Peg.repeated
    split
    · trivial
    · rename_i part c' hpart
      have hparts := partsFit_repeated hchars hsubst n c'
      rw [eval_templatePart, Option.or_eq_some_iff] at hpart
      rcases hpart with hpart | ⟨-, hpart⟩
      · obtain ⟨m, hm, rfl, hrest⟩ := hchars c _ c' hpart
        obtain ⟨rfl, hpos⟩ := Lexeme.templateChars_eq_some hm
        refine ⟨by simpa using hpos, Lexeme.isTemplateText_take hm, ?_⟩
        rw [hrest, Lexeme.templateText_drop] at hparts
        exact hparts
      · obtain ⟨value, rfl, hvalue⟩ := hsubst c _ c' hpart
        exact ⟨hvalue, hparts.fresh⟩

/-- The body of a rule yields what the rule is said to yield. -/
theorem delivers_body (hchars : ReadsChars call)
    (hcall : ∀ r c v c', call r c = some (v, c') → r.Sound v) (r : Rule) :
    (body r).Delivers call blank Rule.Sound r.Sound := by
  cases r with
  | endOfInput | varKeyword | letKeyword | constKeyword | functionKeyword | returnKeyword
  | ifKeyword | elseKeyword | whileKeyword => exact fun _ _ _ => trivial
  | restMarker => exact trivial
  | boolean | null | this => exact fun _ _ _ _ => trivial
  | declarationKeyword => exact ⟨fun _ _ => trivial, fun _ _ => trivial, fun _ _ => trivial⟩
  | orOperator | andOperator | powerOperator => exact fun _ _ => trivial
  | equalityOperator | additiveOperator => exact ⟨fun _ _ => trivial, fun _ _ => trivial⟩
  | relationalOperator =>
    exact ⟨fun _ _ => trivial, fun _ _ => trivial, fun _ _ => trivial, fun _ _ => trivial⟩
  | multiplicativeOperator =>
    exact ⟨fun _ _ => trivial, fun _ _ => trivial, fun _ _ => trivial⟩
  | unaryOperator => exact ⟨trivial, trivial⟩
  -- Statements
  | program =>
    exact ⟨_, delivers_statement, fun _ h _ _ _ => Build.okay_program h⟩
  | declaration =>
    exact fun _ _ => delivers_commaList (fun _ h => h) fun _ _ h _ => Build.okay_declaration h
  | declarator =>
    exact fun name hname => ⟨fun _ => Build.okay_declarator hname nofun,
      fun _ h _ => Build.okay_declarator hname (forall_mem_some h)⟩
  | functionDeclaration =>
    exact fun _ _ name hname _ hps _ hbody _ => Build.okay_functionDeclaration hname hps hbody
  | params =>
    have hparams : ∀ ps : List ParamText, (∀ p ∈ ps, p.Sound) → Okay (Build.params ps) ParamsFit :=
      fun ps h => (Build.okay_params h).mono fun _ hts => hts.1
    exact ⟨hparams [] nofun, delivers_commaList (fun _ h => h) fun a as h => hparams (a :: as) h⟩
  | param =>
    exact ⟨fun _ hname => ⟨fun _ => ⟨hname, nofun⟩, fun _ h _ => ⟨hname, forall_mem_some h⟩⟩,
      fun _ _ _ hname => ⟨fun _ => ⟨hname, nofun⟩, fun _ h _ => ⟨hname, forall_mem_some h⟩⟩⟩
  | returnStatement =>
    exact fun _ _ => ⟨fun _ => Build.okay_returnStatement nofun,
      fun _ h _ => Build.okay_returnStatement (forall_mem_some h)⟩
  | ifStatement =>
    exact fun _ _ _ htest => delivers_statement.mono fun _ hcons =>
      ⟨fun _ => Build.okay_ifStatement htest hcons nofun, fun _ _ =>
        delivers_statement.mono fun _ halt _ =>
          Build.okay_ifStatement htest hcons (forall_mem_some halt)⟩
  | whileStatement =>
    exact fun _ _ _ htest => delivers_statement.mono fun _ hbody _ =>
      Build.okay_whileStatement htest hbody
  | block => exact ⟨_, delivers_statement, fun _ h _ => Build.okay_block h⟩
  | emptyStatement => exact fun _ => .pure (.node rfl nofun rfl)
  | expressionStatement => exact fun _ h _ => Build.okay_expressionStatement h
  -- Expressions
  | expression => exact fun _ h => h
  | assignment =>
    exact ⟨fun _ h => h, fun _ htarget => ⟨fun _ => Build.okay_assignment htarget nofun,
      fun _ h _ => Build.okay_assignment htarget (forall_mem_some h)⟩⟩
  | arrowFunction => exact fun _ hps _ hbody _ => Build.okay_arrowFunction hps hbody
  | arrowParams => exact ⟨fun _ hname => Build.okay_bareParam hname, fun _ h => h⟩
  | arrowBody =>
    exact ⟨fun _ h => h.mono fun _ ht => ht.mono fun hb => by simp [hb],
      fun _ h => h.mono fun _ ht => ht.mono fun he => by simp [he]⟩
  | logicalOr | logicalAnd | equality | relational | additive | multiplicative =>
    exact delivers_chain (fun _ h => h) fun _ _ => trivial
  | exponent =>
    exact fun _ hbase => ⟨fun _ => Build.okay_exponent hbase nofun,
      fun _ _ _ h _ => Build.okay_exponent hbase (forall_mem_some h)⟩
  | unary => exact ⟨fun _ _ _ h _ => Build.okay_unary h, fun _ h => h⟩
  | postfixChain =>
    exact delivers_primary.mono fun _ hfirst => ⟨Suffix.Sound,
      ⟨fun _ h => h, fun _ h => h, fun _ h => h⟩,
      fun _ hsuffixes => Build.okay_postfixChain hfirst hsuffixes⟩
  | callArguments =>
    exact ⟨fun _ => nofun, delivers_commaList (fun _ h => h) fun _ _ h _ => h⟩
  | memberSuffix | indexSuffix => exact fun _ h _ => h
  | functionExpression =>
    exact fun _ _ => ⟨fun _ hps _ hbody _ => Build.okay_functionExpression nofun hps hbody,
      fun _ hname _ hps _ hbody _ =>
        Build.okay_functionExpression (forall_mem_some hname) hps hbody⟩
  | array =>
    exact ⟨fun _ => Build.okay_array nofun, delivers_commaList (fun _ h => h) fun _ _ h =>
      ⟨fun _ => Build.okay_array h, fun _ => Build.okay_array h⟩⟩
  | object =>
    exact ⟨fun _ => Build.okay_object nofun, delivers_commaList delivers_property fun _ _ h =>
      ⟨fun _ => Build.okay_object h, fun _ => Build.okay_object h⟩⟩
  | methodProperty => exact fun _ hkey _ hps _ hbody _ => Build.okay_methodProperty hkey hps hbody
  | keyedProperty => exact fun _ hkey _ h _ => Build.okay_keyedProperty hkey h
  | shorthandProperty =>
    exact fun _ hname _ => Build.okay_shorthandProperty hname (isName_of_isIdentifier hname)
  | propertyKey => exact ⟨fun _ h => h, fun _ h => h⟩
  -- Words and literals
  | number => exact fun cs n hn _ => Lexeme.isNumber_take hn
  | string => exact fun cs n hn _ => Lexeme.isStringContents_take hn
  | template =>
    exact fun n c _ =>
      Build.okay_template (partsFit_repeated hchars (hcall .templateSubstitution) n c).fresh
  | templateChars => exact fun cs n hn => ⟨_, rfl, Lexeme.isTemplateText_take hn⟩
  | templateSubstitution => exact fun v h => ⟨v, rfl, h⟩
  | identifier => exact fun cs n hn _ => Lexeme.isIdentifier_take hn
  | propertyName => exact fun cs n hn _ => Lexeme.isName_take hn

end Phrase

open Grammar.Grounded (recognizeWithin)

theorem readsChars_recognizeWithin :
    ∀ depth, Phrase.ReadsChars (recognizeWithin echoGrammar depth)
  | 0, _, _, _, h => nomatch h
  | depth + 1, c, v, c', h => by
    have h : Peg.eval (recognizeWithin echoGrammar depth) Lexeme.blank
        (Phrase.body .templateChars) c = some (v, c') := h
    simp only [Phrase.body, Peg.eval] at h
    split at h <;> cases h
    rename_i n hn
    exact ⟨n, hn, rfl, rfl⟩

/-- Every value that a rule yields is what the rule is said to yield. -/
theorem sound_recognizeWithin :
    ∀ depth r c v c', recognizeWithin echoGrammar depth r c = some (v, c') → r.Sound v
  | 0, _, _, _, _, h => nomatch h
  | depth + 1, r, _, _, _, h =>
    have hcall := sound_recognizeWithin depth
    Peg.Delivers.sound hcall
      (Phrase.delivers_body (readsChars_recognizeWithin depth) hcall r) h

/-- What is read as a program is a well-formed one. -/
theorem parseRaw_formed {source : List Char} {raw : RawTree} (h : parseRaw source = .ok raw) :
    raw.Formed ∧ raw.kind.category = .program := by
  have hmatched := matchProgram_matched source
  unfold parseRaw at h
  split at h <;> cases h
  rename_i c tracker hmatch
  rw [hmatch, Phrase.eval_rule] at hmatched
  have hcall : ∀ r c v c', echoGrounded.recognize r c = some (v, c') → r.Sound v :=
    fun r c => sound_recognizeWithin _ r c
  have hchars : Phrase.ReadsChars echoGrounded.recognize :=
    fun c => readsChars_recognizeWithin _ c
  have hsound : Okay (.ok raw) (Fits Kind.isProgram) :=
    Peg.Delivers.sound hcall (Phrase.delivers_body hchars hcall .program) hmatched.symm
  obtain ⟨hformed, hprogram⟩ := hsound raw rfl
  exact ⟨hformed, by simpa [Kind.isProgram] using hprogram⟩


end Downlevel
