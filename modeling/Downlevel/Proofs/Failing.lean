import Downlevel.Proofs.Ranges

/-!
# Where a text is found wrong

A text that does not match the grammar is rejected at the furthest place where a rule was called in vain,
and one that matches, where a part of it starts that cannot be put together. Both are places of the text
(`IsBoundary`): the tracker of a run is only ever set to where the run stands (`Grammar.stands_call`), and
a fault is found where a rule starts (`Phrase.blamed_body`).
-/

namespace Downlevel

/-! ## The furthest place -/

/-- A match leaves off in the text, and the furthest place at which a rule failed is one of the text. -/
structure Reply.Stands {ρ α : Type} (source : List Char) (reply : Reply ρ α) : Prop where
  cursor : ∀ v c, reply.matched = some (v, c) → c.In source
  tracker : IsBoundary source reply.tracker.offset

namespace Reply.Stands

variable {ρ α β : Type} {source : List Char} {v : α} {c : Cursor} {t : Tracker ρ}

theorem some (hc : c.In source) (ht : IsBoundary source t.offset) : Stands source ⟨some (v, c), t⟩ :=
  ⟨by rintro _ _ ⟨⟩; exact hc, ht⟩

theorem none (ht : IsBoundary source t.offset) : Stands source (⟨none, t⟩ : Reply ρ α) :=
  ⟨nofun, ht⟩

/-- A run that goes on from a reply, one way if it is a match and another if it is none. -/
theorem next {reply : Reply ρ α} {fail : Tracker ρ → Reply ρ β}
    {go : α → Cursor → Tracker ρ → Reply ρ β} :
    reply.Stands source → (∀ t, IsBoundary source t.offset → (fail t).Stands source) →
    (∀ v c t, c.In source → IsBoundary source t.offset → (go v c t).Stands source) →
    Stands source (match reply with
      | ⟨.none, t⟩ => fail t
      | ⟨.some (v, c), t⟩ => go v c t) := by
  intro h hfail hgo
  obtain ⟨_ | ⟨v, c⟩, t⟩ := reply
  · exact hfail t h.tracker
  · exact hgo v c t (h.cursor v c rfl) h.tracker

end Reply.Stands

theorem Tracker.offset_miss {ρ : Type} (t : Tracker ρ) (r : ρ) (offset before : Nat) :
    (t.miss r offset before).offset = t.offset ∨ (t.miss r offset before).offset = offset := by
  unfold miss
  split_ifs
  · exact .inl rfl
  · exact .inl rfl
  · exact .inr rfl
  · exact .inr rfl

namespace Peg

variable {ρ : Type} {V : ρ → Type} {source : List Char}

theorem stands_iterate {α : Type} {step : Cursor → Tracker ρ → Reply ρ α}
    (h : ∀ c t, c.In source → IsBoundary source t.offset → (step c t).Stands source) :
    ∀ (limit : Nat) (c : Cursor) (t : Tracker ρ), c.In source → IsBoundary source t.offset →
      (iterate step limit c t).2.1.In source ∧ IsBoundary source (iterate step limit c t).2.2.offset
  | 0, _, _, hc, ht => ⟨hc, ht⟩
  | limit + 1, c, t, hc, ht => by
    have hstep := h c t hc ht
    rw [iterate]
    generalize step c t = reply at hstep
    obtain ⟨_ | ⟨a, c'⟩, t'⟩ := reply
    · exact ⟨hc, hstep.tracker⟩
    · exact stands_iterate h limit c' t' (hstep.cursor a c' rfl) hstep.tracker

variable {call : (r : ρ) → Cursor → Tracker ρ → Reply ρ (V r)} {blank : List Char → Nat} {limit : Nat}

theorem stands_run (hcall : ∀ r c t, c.In source → IsBoundary source t.offset →
      (call r c t).Stands source) {α : Type} (p : Peg V α) :
    ∀ {c t}, c.In source → IsBoundary source t.offset →
      (run call blank limit p c t).Stands source := by
  induction p with
  | succeed v => exact fun hc ht => .some hc ht
  | text s v =>
    intro c t hc ht
    rw [run]
    split
    · exact .some (hc.reaches (c.reaches_advance _)) ht
    · exact .none ht
  | lexeme scan f =>
    intro c t hc ht
    rw [run]
    split
    · exact .none ht
    · exact .some (hc.reaches (c.reaches_advance _)) ht
  | absent ss v =>
    intro c t hc ht
    rw [run]
    split
    · exact .none ht
    · exact .some hc ht
  | call r f =>
    intro c t hc ht
    have h := hcall r c t hc ht
    rw [run]
    generalize call r c t = reply at h
    obtain ⟨_ | ⟨v, c'⟩, t'⟩ := reply
    · exact .none h.tracker
    · exact .some (h.cursor v c' rfl) h.tracker
  | seq f p q ihp ihq =>
    intro c t hc ht
    refine (ihp hc ht).next (fun _ => .none) fun _ c₁ t₁ hc₁ ht₁ => ?_
    have hblank := hc₁.reaches (c₁.reaches_advance (blank c₁.rest))
    exact (ihq hblank ht₁).next (fun _ => .none) fun _ _ _ => .some
  | tight f p q ihp ihq =>
    intro c t hc ht
    refine (ihp hc ht).next (fun _ => .none) fun _ c₁ t₁ hc₁ ht₁ => ?_
    exact (ihq hc₁ ht₁).next (fun _ => .none) fun _ _ _ => .some
  | choice p q ihp ihq =>
    intro c t hc ht
    have hp := ihp hc ht
    rw [run]
    generalize run call blank limit p c t = reply at hp
    obtain ⟨_ | ⟨a, c₁⟩, t₁⟩ := reply
    · exact ihq hc hp.tracker
    · exact hp
  | opt f p ih => exact fun hc ht => (ih hc ht).next (fun _ => .some hc) fun _ _ _ => .some
  | many f p ih =>
    intro c t hc ht
    refine (ih hc ht).next (fun _ => .some hc) fun _ c₁ t₁ hc₁ ht₁ => ?_
    have hmore := stands_iterate
      (fun c t hc ht => ih (hc.reaches (c.reaches_advance (blank c.rest))) ht) limit c₁ t₁ hc₁ ht₁
    exact .some hmore.1 hmore.2
  | manyTight f p ih =>
    intro c t hc ht
    have hall := stands_iterate (fun c t hc ht => ih hc ht) limit c t hc ht
    exact .some hall.1 hall.2
  | span f p ih | slice f p ih | map f p ih =>
    exact fun hc ht => (ih hc ht).next (fun _ => .none) fun _ _ _ => .some

end Peg

/-- Wherever a rule is called in the text, nothing is recorded outside of it. -/
theorem Grammar.stands_call {ρ : Type} {V : ρ → Type} {source : List Char} (g : Grammar V) (limit : Nat) :
    ∀ (depth : Nat) (r : ρ) (c : Cursor) (t : Tracker ρ), c.In source → IsBoundary source t.offset →
      (g.call limit depth r c t).Stands source
  | 0, _, _, _, _, ht => .none ht
  | depth + 1, r, c, t, hc, ht => by
    have hbody : (Peg.run (g.call limit depth) g.blank limit (g.body r) c t).Stands source :=
      Peg.stands_run (g.stands_call limit depth) (g.body r) hc ht
    rw [call]
    generalize Peg.run (g.call limit depth) g.blank limit (g.body r) c t = reply at hbody
    obtain ⟨_ | ⟨v, c'⟩, t'⟩ := reply
    · refine .none ?_
      rcases t'.offset_miss r c.offset (t.count c.offset) with h | h <;> rw [h]
      · exact hbody.tracker
      · exact hc.boundary
    · exact hbody

/-! ## Faults -/

/-- If there is a fault, it is at a place of the text. -/
def Blames {α : Type} (source : List Char) (v : Except Fault α) : Prop :=
  ∀ fault, v = .error fault → IsBoundary source fault.offset

namespace Blames

variable {α β : Type} {source : List Char}

theorem pure {a : α} : Blames source (Pure.pure a : Except Fault α) :=
  nofun

theorem throw {cause : Fault.Cause} {offset : Nat} (h : IsBoundary source offset) :
    Blames source (.error ⟨cause, offset⟩ : Except Fault α) := by
  rintro _ ⟨⟩
  exact h

theorem bind {v : Except Fault α} {f : α → Except Fault β} (h : Blames source v)
    (hf : ∀ a, Blames source (f a)) : Blames source (v >>= f) := by
  cases v with
  | error fault => exact fun e he => h e (by cases he; rfl)
  | ok a => exact hf a

theorem all {vs : List Built} (h : ∀ v ∈ vs, Blames source v) : Blames source (Build.all vs) := by
  induction vs with
  | nil => exact .pure
  | cons v vs ih =>
    rw [List.forall_mem_cons] at h
    rw [Build.all, List.mapM_cons]
    exact h.1.bind fun _ => (ih h.2).bind fun _ => .pure

theorem maybe {v? : Option Built} (h : ∀ v ∈ v?, Blames source v) : Blames source (Build.maybe v?) := by
  cases v? with
  | none => exact .pure
  | some v => exact (h v rfl).bind fun _ => .pure

end Blames

/-- The parameter starts at a place of the text, and its default has its faults there. -/
structure ParamText.Blames (source : List Char) (p : ParamText) : Prop where
  start : IsBoundary source p.range.start
  fallback : ∀ v ∈ p.fallback, Downlevel.Blames source v

def Suffix.Blames (source : List Char) : Suffix → Prop
  | call _ arguments => ∀ v ∈ arguments, Downlevel.Blames source v
  | member _ _ => True
  | index _ key => Downlevel.Blames source key

def TemplatePart.Blames (source : List Char) : TemplatePart → Prop
  | chars _ => True
  | substitution v => Downlevel.Blames source v

namespace Build

variable {source : List Char}

theorem blames_params {ps : List ParamText} (h : ∀ p ∈ ps, p.Blames source) :
    Blames source (params ps) := by
  induction ps with
  | nil => exact .pure
  | cons p ps ih =>
    rw [List.forall_mem_cons] at h
    rw [params]
    refine (Blames.maybe h.1.fallback).bind fun fallback => ?_
    dsimp only
    split
    · exact .throw h.1.start
    split
    · exact .throw h.1.start
    · exact (ih h.2).bind fun _ => .pure

theorem blames_assignment {target : Built} {value : Option Built} {range : Range}
    (htarget : Blames source target) (hvalue : ∀ v ∈ value, Blames source v)
    (hrange : IsBoundary source range.start) : Blames source (assignment target value range) := by
  cases value with
  | none => exact htarget
  | some value =>
    refine htarget.bind fun target => ?_
    dsimp only
    split
    · exact .throw hrange
    · exact (hvalue value rfl).bind fun _ => .pure

theorem blames_operator {text : OperatorText} (h : IsBoundary source text.offset) :
    Blames source (operator text) := by
  unfold operator
  dsimp only
  split
  · exact .pure
  · exact .throw h

theorem blames_binaryChain {first : Built} {steps : List (OperatorText × Built)}
    (hfirst : Blames source first)
    (hsteps : ∀ step ∈ steps, IsBoundary source step.1.offset ∧ Blames source step.2) :
    Blames source (binaryChain first steps) := by
  unfold binaryChain
  induction steps generalizing first with
  | nil => exact hfirst
  | cons step steps ih =>
    rw [List.forall_mem_cons] at hsteps
    refine ih (hfirst.bind fun _ => ?_) hsteps.2
    exact (blames_operator hsteps.1.1).bind fun _ => hsteps.1.2.bind fun _ => .pure

theorem blames_exponent {base : Built} {power : Option Built} {range : Range}
    (hbase : Blames source base) (hpower : ∀ v ∈ power, Blames source v) :
    Blames source (exponent base power range) := by
  cases power with
  | none => exact hbase
  | some power => exact hbase.bind fun _ => (hpower power rfl).bind fun _ => .pure

theorem blames_postfixChain {first : Built} {suffixes : List Suffix} (hfirst : Blames source first)
    (hsuffixes : ∀ s ∈ suffixes, s.Blames source) : Blames source (postfixChain first suffixes) := by
  unfold postfixChain
  induction suffixes generalizing first with
  | nil => exact hfirst
  | cons suffix suffixes ih =>
    rw [List.forall_mem_cons] at hsuffixes
    refine ih (hfirst.bind fun base => ?_) hsuffixes.2
    cases suffix with
    | call range arguments => exact (Blames.all hsuffixes.1).bind fun _ => .pure
    | member range name => exact .pure
    | index range key => exact Blames.bind hsuffixes.1 fun _ => .pure

theorem blames_templateParts {text : String} {parts : List TemplatePart}
    (h : ∀ part ∈ parts, part.Blames source) : Blames source (templateParts text parts) := by
  induction parts generalizing text with
  | nil => exact .pure
  | cons part parts ih =>
    rw [List.forall_mem_cons] at h
    cases part with
    | chars more => exact ih h.2
    | substitution value => exact Blames.bind h.1 fun _ => (ih h.2).bind fun _ => .pure

end Build

/-! ## The rules -/

/-- Faults in the value of a rule are at places of the text, and so are those that can be found once it
is put together with others. -/
def Rule.Blames (source : List Char) : (r : Rule) → r.Value → Prop
  | .endOfInput, _ | .restMarker, _ | .varKeyword, _ | .letKeyword, _ | .constKeyword, _
  | .functionKeyword, _ | .returnKeyword, _ | .ifKeyword, _ | .elseKeyword, _ | .whileKeyword, _
  | .number, _ | .string, _ | .boolean, _ | .null, _ | .this, _ | .identifier, _ | .propertyName, _
  | .declarationKeyword, _ | .unaryOperator, _ | .propertyKey, _ => True
  | .orOperator, text | .andOperator, text | .equalityOperator, text | .relationalOperator, text
  | .additiveOperator, text | .multiplicativeOperator, text | .powerOperator, text =>
    IsBoundary source text.offset
  | .params, v | .arrowParams, v => Downlevel.Blames source v
  | .param, p => p.Blames source
  | .callArguments, s | .memberSuffix, s | .indexSuffix, s => s.Blames source
  | .templateChars, part | .templateSubstitution, part => part.Blames source
  | .program, v | .declaration, v | .declarator, v | .functionDeclaration, v | .returnStatement, v
  | .ifStatement, v | .whileStatement, v | .block, v | .emptyStatement, v | .expressionStatement, v
  | .expression, v | .assignment, v | .arrowFunction, v | .arrowBody, v | .logicalOr, v
  | .logicalAnd, v | .equality, v | .relational, v | .additive, v | .multiplicative, v
  | .exponent, v | .unary, v | .postfixChain, v | .functionExpression, v | .array, v | .object, v
  | .methodProperty, v | .keyedProperty, v | .shorthandProperty, v | .template, v =>
    Downlevel.Blames source v

theorem Series.forall_mem {α : Type} {P : α → Prop} {i j : Nat} {as : List α}
    (h : Series (fun _ a _ => P a) i as j) : ∀ a ∈ as, P a := by
  induction h with
  | nil => exact nofun
  | cons _ _ head _ ih => exact List.forall_mem_cons.mpr ⟨head, ih⟩

namespace Phrase

variable {source : List Char} {i : Nat}

/-- What is matched has its faults at places of the text, if the values of rules do. -/
abbrev Blamed {α : Type} (source : List Char) (p : Phrase α) (i : Nat) (P : α → Prop) : Prop :=
  p.Locates source (fun r _ v _ => r.Blames source v) i fun v _ => P v

theorem blamed_statement : Blamed source statement i (Blames source) :=
  ⟨fun _ _ h => h, fun _ _ h => h, fun _ _ h => h, fun _ _ h => h, fun _ _ h => h, fun _ _ h => h,
    fun _ _ h => h, fun _ _ h => h⟩

theorem blamed_property : Blamed source property i (Blames source) :=
  ⟨fun _ _ h => h, fun _ _ h => h, fun _ _ h => h⟩

theorem blamed_primary : Blamed source primary i (Blames source) :=
  ⟨fun _ _ h => h, fun _ _ _ _ _ _ _ h _ _ _ _ _ => h, fun _ _ h => h, fun _ _ _ => .pure,
    fun _ _ _ => .pure, fun _ _ _ => .pure, fun _ _ _ => .pure, fun _ _ _ => .pure, fun _ _ h => h,
    fun _ _ h => h, fun _ _ _ => .pure⟩

theorem blamed_optional {α : Type} {p : Phrase α} {P : α → Prop} (h : Blamed source p i P) :
    Blamed source (Peg.optional p) i fun v? => ∀ v ∈ v?, P v :=
  ⟨nofun, h.mono fun _ _ hv => by simpa using hv⟩

theorem blamed_init : Blamed source init i (Blames source) :=
  fun _ _ _ _ _ _ _ h => h

theorem blamed_list {α : Type} {p : Phrase α} {P : α → Prop} (h : ∀ i, Blamed source p i P) :
    Blamed source (Peg.list p) i fun vs => ∀ v ∈ vs, P v :=
  ⟨fun _ v _ => P v, h, fun _ _ hvs => hvs.forall_mem⟩

theorem blamed_commaList {α : Type} {p : Phrase α} {P : α → Prop} (h : ∀ i, Blamed source p i P) :
    Blamed source (Peg.commaList p) i fun vs => ∀ v ∈ vs, P v := by
  refine (h i).mono fun a _ ha k _ _ => ?_
  refine Peg.Locates.mono (blamed_list (p := Peg.lit "," *> p) fun _ _ _ l _ _ => h l) fun as _ has => ?_
  exact List.forall_mem_cons.mpr ⟨ha, has⟩

/-- A list with a comma at the end, or without one. -/
theorem blamed_closedList {α : Type} {p : Phrase α} {P : α → Prop} (h : ∀ i, Blamed source p i P) :
    Blamed source (Peg.commaList p <* Peg.optional (Peg.lit ",")) i fun vs => ∀ v ∈ vs, P v := by
  change (Peg.commaList p).Locates source _ i fun vs j => ∀ k, i ≤ j → j ≤ k →
    Blamed source (Peg.optional (Peg.lit ",")) k fun _ => ∀ v ∈ vs, P v
  exact (blamed_commaList h).mono fun _ _ hvs _ _ _ => ⟨hvs, fun _ _ => hvs⟩

/-- A list that may be missing. -/
theorem forall_mem_getD {α : Type} {P : α → Prop} {as? : Option (List α)}
    (h : ∀ as ∈ as?, ∀ a ∈ as, P a) : ∀ a ∈ as?.getD [], P a := by
  cases as? with
  | none => exact nofun
  | some as => exact h as rfl

theorem blamed_chain {operand : Phrase Built} {op : Phrase OperatorText}
    (h : ∀ i, Blamed source operand i (Blames source))
    (hop : ∀ i, Blamed source op i fun text => IsBoundary source text.offset) :
    Blamed source (chain operand op) i (Blames source) := by
  refine (h i).mono fun first _ hfirst k _ _ => ?_
  refine Peg.Locates.mono (blamed_list (p := Prod.mk <$> op <*> operand)
    (P := fun step => IsBoundary source step.1.offset ∧ Blames source step.2) fun i => ?_)
    fun steps _ hsteps => Build.blames_binaryChain hfirst hsteps
  exact (hop i).mono fun _ _ htext l _ _ => (h l).mono fun _ _ hv => ⟨htext, hv⟩

/-- An operator starts where its rule is called. -/
theorem blamed_operator {p : Phrase Unit} (hi : IsBoundary source i) :
    Blamed source (operator p) i fun text => IsBoundary source text.offset :=
  Peg.Locates.of_forall (p := p) fun _ _ _ => hi

/-- The body of a rule that is called at a place of the text has its faults at places of the text. -/
theorem blamed_body (r : Rule) (hi : IsBoundary source i) : Blamed source (body r) i (r.Blames source) := by
  cases r with
  | endOfInput | varKeyword | letKeyword | constKeyword | functionKeyword | returnKeyword
  | ifKeyword | elseKeyword | whileKeyword | restMarker | propertyName | declarationKeyword
  | number | string | boolean | null | this | identifier | unaryOperator | propertyKey =>
    exact .of_forall fun _ _ => trivial
  | orOperator | andOperator | powerOperator | equalityOperator | additiveOperator
  | relationalOperator | multiplicativeOperator =>
    exact blamed_operator hi
  -- Statements
  | program =>
    intro _ _ _
    refine (blamed_list fun _ => blamed_statement).mono fun _ _ hbody _ _ _ _ _ _ => ?_
    exact (Blames.all hbody).bind fun _ => .pure
  | declaration =>
    intro _ _ _ _ _ _
    refine (blamed_commaList (p := rule .declarator) fun _ _ _ h => h).mono fun _ _ hvs _ _ _ _ _ => ?_
    exact (Blames.all hvs).bind fun _ => .pure
  | declarator =>
    intro _ _ _ _ _ _
    refine (blamed_optional blamed_init).mono fun _ _ hinit => ?_
    exact (Blames.maybe hinit).bind fun _ => .pure
  | functionDeclaration =>
    intro _ _ _ _ _ _ _ _ _ _ _ _ _ _ hps _ _ _ _ _ hbody
    exact Blames.bind hps fun _ => Blames.bind hbody fun _ => .pure
  | params =>
    intro _ _ _ _ _
    refine (blamed_optional (blamed_commaList (p := rule .param) fun _ _ _ h => h)).mono ?_
    intro ps _ hps _ _ _ _ _
    exact Build.blames_params (forall_mem_getD hps)
  | param =>
    refine ⟨fun _ _ _ _ _ _ _ _ _ => ?_, fun _ _ _ _ _ _ _ _ _ _ _ _ => ?_⟩ <;>
      exact (blamed_optional blamed_init).mono fun _ _ hfallback => ⟨hi, hfallback⟩
  | returnStatement =>
    intro _ _ _ _ _ _
    refine (blamed_optional (p := rule .expression) fun _ _ h => h).mono fun _ _ hv _ _ _ _ _ => ?_
    exact (Blames.maybe hv).bind fun _ => .pure
  | ifStatement =>
    intro _ _ _ _ _ _ _ _ _ _ _ _ _ htest _ _ _ _ _ _ _ _
    refine blamed_statement.mono fun _ _ hconsequent k _ _ => ?_
    have helse : Blamed source (rule .elseKeyword *> statement) k (Blames source) :=
      fun _ _ _ _ _ _ => blamed_statement
    refine (blamed_optional helse).mono fun _ _ halternate => ?_
    exact Blames.bind htest fun _ => hconsequent.bind fun _ => (Blames.maybe halternate).bind fun _ => .pure
  | whileStatement =>
    intro _ _ _ _ _ _ _ _ _ _ _ _ _ htest _ _ _ _ _ _ _ _
    refine blamed_statement.mono fun _ _ hbody => ?_
    exact Blames.bind htest fun _ => hbody.bind fun _ => .pure
  | block =>
    intro _ _ _ _ _
    refine (blamed_list fun _ => blamed_statement).mono fun _ _ hbody _ _ _ _ _ => ?_
    exact (Blames.all hbody).bind fun _ => .pure
  | emptyStatement => exact fun _ _ => .pure
  | expressionStatement => exact fun _ _ _ _ _ h _ _ _ _ _ => Blames.bind h fun _ => .pure
  -- Expressions
  | expression => exact fun _ _ h => h
  | assignment =>
    refine ⟨fun _ _ h => h, fun target _ htarget k _ _ => ?_⟩
    have hassign : Blamed source (assignSign *> rule .assignment) k (Blames source) :=
      fun _ _ _ _ _ _ _ _ _ _ h => h
    refine (blamed_optional hassign).mono fun value _ hvalue => ?_
    exact Build.blames_assignment htarget hvalue hi
  | arrowFunction =>
    intro _ _ hps _ _ _ _ _ _ _ _ _ _ hbody
    exact Blames.bind hps fun _ => Blames.bind hbody fun _ => .pure
  | arrowParams => exact ⟨fun _ _ _ => .pure, fun _ _ h => h⟩
  | arrowBody => exact ⟨fun _ _ h => h, fun _ _ h => h⟩
  | logicalOr | logicalAnd | equality | relational | additive | multiplicative =>
    exact blamed_chain (fun _ _ _ h => h) fun _ _ _ h => h
  | exponent =>
    intro _ _ hbase k _ _
    have hraise : Blamed source (rule .powerOperator *> rule .exponent) k (Blames source) :=
      fun _ _ _ _ _ _ _ _ h => h
    exact (blamed_optional hraise).mono fun _ _ hpower => Build.blames_exponent hbase hpower
  | unary => exact ⟨fun _ _ _ _ _ _ _ _ h => Blames.bind h fun _ => .pure, fun _ _ h => h⟩
  | postfixChain =>
    refine blamed_primary.mono fun _ _ hfirst _ _ _ => ?_
    refine (blamed_list (p := rule .callArguments <|> rule .memberSuffix <|> rule .indexSuffix)
      (P := Suffix.Blames source) ?_).mono fun _ _ hsuffixes => Build.blames_postfixChain hfirst hsuffixes
    exact fun _ => ⟨fun _ _ h => h, fun _ _ h => h, fun _ _ h => h⟩
  | callArguments =>
    intro _ _ _ _ _
    refine (blamed_optional (blamed_commaList (p := rule .expression) fun _ _ _ h => h)).mono ?_
    intro arguments _ harguments _ _ _ _ _
    exact forall_mem_getD harguments
  | memberSuffix => exact fun _ _ _ _ _ _ _ _ => trivial
  | indexSuffix => exact fun _ _ _ _ _ _ _ h _ _ _ _ _ => h
  | functionExpression =>
    intro _ _ _ _ _ _
    refine (blamed_optional (p := rule .identifier) (P := fun _ => True) fun _ _ _ => trivial).mono ?_
    intro name _ _ _ _ _ _ _ hps _ _ _ _ _ hbody
    exact Blames.bind hps fun _ => Blames.bind hbody fun _ => .pure
  | array =>
    intro _ _ _ _ _
    refine (blamed_optional (blamed_closedList (p := rule .expression) fun _ _ _ h => h)).mono ?_
    intro elements _ helements _ _ _ _ _
    exact (Blames.all (forall_mem_getD helements)).bind fun _ => .pure
  | object =>
    intro _ _ _ _ _
    refine (blamed_optional (blamed_closedList fun _ => blamed_property)).mono ?_
    intro properties _ hproperties _ _ _ _ _
    exact (Blames.all (forall_mem_getD hproperties)).bind fun _ => .pure
  | methodProperty =>
    intro _ _ _ _ _ _ _ _ hps _ _ _ _ _ hbody
    exact Blames.bind hps fun _ => Blames.bind hbody fun _ => .pure
  | keyedProperty => exact fun _ _ _ _ _ _ _ _ _ _ _ _ _ h => Blames.bind h fun _ => .pure
  | shorthandProperty => exact fun _ _ _ => .pure
  -- Literals
  | template =>
    intro _ _ _ _ _
    refine ⟨fun _ part _ => part.Blames source, fun _ => ⟨fun _ _ h => h, fun _ _ h => h⟩, ?_⟩
    intro parts _ hparts _ _ _ _ _
    exact (Build.blames_templateParts hparts.forall_mem).bind fun _ => .pure
  | templateChars => exact fun _ _ _ _ _ => trivial
  | templateSubstitution => exact fun _ _ _ _ _ _ _ h _ _ _ _ _ => h

end Phrase

open Grammar.Grounded (recognizeWithin recognizeWithin_reaches)

/-- Every value that a rule yields has its faults at places of the text. -/
theorem blames_recognizeWithin {source : List Char} :
    ∀ depth r c v c', c.In source → recognizeWithin echoGrammar depth r c = some (v, c') → r.Blames source v
  | 0, _, _, _, _, _, h => nomatch h
  | depth + 1, r, _, _, _, hc, h =>
    Peg.Locates.sound (recognizeWithin_reaches echoGrammar depth) (blames_recognizeWithin depth)
      (Phrase.blamed_body r hc.boundary) hc h

/-- A text that cannot be read is rejected at a place of the text. -/
theorem isBoundary_of_parseRaw {source : List Char} {cause : ParseError.Cause} {offset : Nat}
    (h : parseRaw source = .error (cause, offset)) : IsBoundary source offset := by
  have hstart : Cursor.In source ⟨source, 0⟩ := Cursor.reaches_refl ⟨source, 0⟩
  have hmatched := matchProgram_matched source
  unfold parseRaw at h
  split at h <;> cases h
  · rename_i fault c tracker hmatch
    rw [hmatch, Phrase.eval_rule] at hmatched
    have hrecognize : echoGrounded.recognize .program ⟨source, 0⟩ = some (.error fault, c) := by
      rw [echoGrounded.recognize_eq]
      exact hmatched.symm
    exact blames_recognizeWithin _ .program _ _ _ hstart hrecognize fault rfl
  · rename_i tracker hmatch
    have hstands : (matchProgram source).Stands source :=
      echoGrammar.stands_call _ _ .program _ _ hstart hstart.boundary
    rw [hmatch] at hstands
    exact hstands.tracker

end Downlevel
