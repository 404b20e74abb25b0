import Downlevel.Proofs.Passes
import Downlevel.Proofs.Respects
import Downlevel.Proofs.RoundTrip
import Downlevel.Proofs.SameShape

/-!
# Programs that differ in blanks

Every rule of the grammar matches alike in texts that are alike, with values that are equal but for
the places they name (`Phrase.keeps_body`). So two programs whose texts differ in blanks only are both
rejected, or read as the same tree but for places (`parse_alike`).
-/

namespace Downlevel

open Lexeme (blank skip)

/-! ## Operators -/

theorem OperatorText.alike_of_chars (o o' : Nat) (chars : List Char) :
    OperatorText.Alike ⟨o, chars⟩ ⟨o', chars⟩ := by
  unfold OperatorText.Alike Build.operator
  dsimp only
  split
  · exact .ok rfl
  · exact .error _ _

theorem Lexeme.head_of_blank {c : Char} {cs : List Char} (h : 0 < blank (c :: cs)) :
    isSpace c = true ∨ c = '/' := by
  by_contra hc
  rw [not_or] at hc
  rw [blank.eq_4 c cs (fun _ e => absurd e hc.2) (fun _ e => absurd e hc.2), if_neg hc.1] at h
  exact Nat.lt_irrefl 0 h

/-- No operator goes on with a blank. -/
theorem BinaryOp.ofSymbol?_eq_none {c d : Char} {cs : List Char}
    (hd : Lexeme.isSpace d = true ∨ d = '/') :
    BinaryOp.ofSymbol? (String.ofList (c :: d :: cs)) = none := by
  have hall : (BinaryOp.all.all fun op => op.symbol.toList[1]?.all fun x =>
      !Lexeme.isSpace x && x ≠ '/') = true := by decide
  rw [BinaryOp.ofSymbol?, List.find?_eq_none]
  intro op hop hsymbol
  have hlist : op.symbol.toList = c :: d :: cs := by
    rw [of_decide_eq_true hsymbol, String.toList_ofList]
  have hd' := List.all_eq_true.mp hall op hop
  rw [hlist, List.getElem?_cons_succ, List.getElem?_cons_zero, Option.all_some, Bool.and_eq_true,
    Bool.not_eq_true', decide_eq_true_iff] at hd'
  rcases hd with hd | hd
  · rw [hd'.1] at hd
    cases hd
  · exact hd'.2 hd

/-- What is taken for a multiplication: its sign with nothing but spaces behind it. -/
theorem Build.operator_star (o : Nat) (t : List Char) :
    Build.operator ⟨o, '*' :: t.take (blank t)⟩ =
      if blanksPlain t then .ok .multiply else .error ⟨.unknownOperator, o⟩ := by
  obtain ⟨bs, hbs⟩ : ∃ bs, bs = t.take (blank t) := ⟨_, rfl⟩
  have hplain : blanksPlain t = bs.all Lexeme.isSpace := by rw [blanksPlain, hbs]
  have hdrop : ('*' :: bs).reverse.dropWhile Lexeme.isSpace
      = bs.reverse.dropWhile Lexeme.isSpace ++ ['*'] := by
    rw [List.reverse_cons, List.dropWhile_append]
    split_ifs with h
    · rw [List.isEmpty_iff.mp h]
      rfl
    · rfl
  rw [← hbs, hplain, Build.operator]
  dsimp only
  rw [hdrop, List.reverse_append, List.reverse_singleton, List.singleton_append]
  split_ifs with hall
  · have hnil : bs.reverse.dropWhile Lexeme.isSpace = [] :=
      List.dropWhile_eq_nil_iff.mpr fun c hc => List.all_eq_true.mp hall c (List.mem_reverse.mp hc)
    rw [hnil]
    rfl
  · -- what is left of the blanks starts as they do, with a space or a comment
    have hne : (bs.reverse.dropWhile Lexeme.isSpace).reverse ≠ [] := by
      rw [ne_eq, List.reverse_eq_nil_iff, List.dropWhile_eq_nil_iff]
      exact fun h => hall (List.all_eq_true.mpr fun c hc => h c (List.mem_reverse.mpr hc))
    have hpre : (bs.reverse.dropWhile Lexeme.isSpace).reverse <+: bs := by
      rw [← List.reverse_suffix, List.reverse_reverse]
      exact List.dropWhile_suffix _
    obtain ⟨c, cs, hcs⟩ := List.exists_cons_of_ne_nil hne
    rw [hcs] at hpre ⊢
    obtain ⟨tail, htail⟩ := hpre
    have hpos : 0 < blank t := by
      by_contra h
      rw [hbs, Nat.eq_zero_of_not_pos h] at htail
      cases htail
    cases t with
    | nil => simp [blank] at hpos
    | cons d t =>
      obtain ⟨n, hn⟩ : ∃ n, blank (d :: t) = n + 1 := ⟨blank (d :: t) - 1, by omega⟩
      rw [hbs, hn, List.take_succ_cons, List.cons_append] at htail
      obtain rfl : c = d := (List.cons.inj htail).1
      rw [BinaryOp.ofSymbol?_eq_none (Lexeme.head_of_blank hpos)]

theorem OperatorText.alike_star (o o' : Nat) {t t' : List Char}
    (h : blanksPlain t = blanksPlain t') : OperatorText.Alike ⟨o, '*' :: t.take (blank t)⟩
      ⟨o', '*' :: t'.take (blank t')⟩ := by
  rw [OperatorText.Alike, Build.operator_star, Build.operator_star, h]
  split_ifs
  · exact .ok rfl
  · exact .error _ _

namespace Phrase

variable {call : (r : Rule) → Cursor → Option (r.Value × Cursor)} {σ : List Bracket}

/-- No match in both texts, or matches of texts that are taken for the same operator. -/
inductive TakesAlike (σ : List Bracket) (c c' : Cursor) :
    Option (Unit × Cursor) → Option (Unit × Cursor) → Prop
  | none : TakesAlike σ c c' none none
  | some {n n' : Nat} (text : ∀ o o', OperatorText.Alike ⟨o, c.rest.take n⟩ ⟨o', c'.rest.take n'⟩)
    (rest : Alike σ (c.rest.drop n) (c'.rest.drop n')) :
    TakesAlike σ c c' (some ((), c.advance n)) (some ((), c'.advance n'))

/-- Matches the signs of operators alike. -/
def Signs (call : (r : Rule) → Cursor → Option (r.Value × Cursor)) (σ : List Bracket)
    (p : Phrase Unit) : Prop :=
  ∀ c c', Facing σ c.rest c'.rest →
    TakesAlike σ c c' (Peg.eval call blank p c) (Peg.eval call blank p c')

theorem Signs.lit {s : String} (h : ReadsAlike σ s.toList σ) : Signs call σ (Peg.lit s) := by
  intro c c' hc
  simp only [Peg.lit, Peg.eval, ← h.isPrefixOf_eq hc]
  split
  · rename_i hs
    obtain ⟨t, ht⟩ := List.isPrefixOf_iff_prefix.mp hs
    obtain ⟨t', ht', hrest⟩ := h hc ht.symm
    refine .some (fun o o' => ?_) ?_
    · rw [← ht, ht', List.take_left, List.take_left]
      exact OperatorText.alike_of_chars o o' _
    · rwa [← ht, ht', List.drop_left, List.drop_left]
  · exact .none

theorem Signs.choice {p q : Phrase Unit} (hp : Signs call σ p) (hq : Signs call σ q) :
    Signs call σ (.choice p q) := by
  intro c c' hc
  have h := hp c c' hc
  simp only [Peg.eval]
  generalize Peg.eval call blank p c = x at h ⊢
  generalize Peg.eval call blank p c' = x' at h ⊢
  cases h with
  | none => exact hq c c' hc
  | some text rest => exact .some text rest

/-- What the sign of a multiplication takes up: blanks behind it, but no second star. -/
theorem eval_star {c : Cursor} {t : List Char} (h : c.rest = '*' :: t) :
    Peg.eval call blank (Peg.lit "*" <* .absent ["*".toList] ()) c
      = if (skip t).head? = some '*' then none else some ((), c.advance (blank t + 1)) := by
  have hprefix : "*".toList.isPrefixOf c.rest = true := by rw [h]; rfl
  have hrest : (c.advance "*".toList.length).rest = t := by rw [Cursor.advance_rest, h]; rfl
  have hskip : ((c.advance "*".toList.length).advance (blank t)).rest = skip t := by
    rw [Cursor.advance_rest, hrest, skip]
  have habsent : (["*".toList].any fun s => s.isPrefixOf (skip t)) = true
      ↔ (skip t).head? = some '*' := by
    cases skip t with
    | nil => simp
    | cons d s => simpa using eq_comm
  simp only [SeqLeft.seqLeft, Peg.lit, Peg.eval, hprefix, if_true, hrest, hskip, habsent]
  split_ifs
  · rfl
  · rw [Cursor.advance_advance, Nat.add_comm]
    rfl

theorem eval_star_eq_none {c : Cursor} (h : ¬ ∃ t, c.rest = '*' :: t) :
    Peg.eval call blank (Peg.lit "*" <* .absent ["*".toList] ()) c = none := by
  have hprefix : "*".toList.isPrefixOf c.rest = false := by
    rw [← Bool.not_eq_true, List.isPrefixOf_iff_prefix]
    rintro ⟨t, ht⟩
    exact h ⟨t, ht.symm⟩
  simp only [SeqLeft.seqLeft, Peg.lit, Peg.eval, hprefix]
  rfl

theorem Signs.star (hσ : inTemplate σ = false) :
    Signs call σ (Peg.lit "*" <* .absent ["*".toList] ()) := by
  intro c c' hc
  by_cases hstar : ∃ t, c.rest = '*' :: t
  · obtain ⟨t, ht⟩ := hstar
    obtain ⟨t', ht', hcases⟩ := Alike.star (ht ▸ hc.alike) hσ
    rw [eval_star ht, eval_star ht']
    rcases hcases with ⟨htwo, htwo'⟩ | ⟨hplain, hrest⟩
    · have hskip : ∀ s : List Char, s.head? = some '*' → (skip s).head? = some '*' := by
        intro s hs
        obtain ⟨s, rfl⟩ := List.head?_eq_some_iff.mp hs
        rw [Lexeme.skip_cons (by decide) (by decide)]
        rfl
      rw [if_pos (hskip t htwo), if_pos (hskip t' htwo')]
      exact .none
    · have himp : ∀ {s s' : List Char}, Alike σ s s' → s.head? = some '*' → s'.head? = some '*' := by
        intro s s' hs hhead
        obtain ⟨s, rfl⟩ := List.head?_eq_some_iff.mp hhead
        obtain ⟨s', rfl, -⟩ := hs.star hσ
        rfl
      have hskip := hrest.skip hσ
      by_cases hhead : (skip t).head? = some '*'
      · rw [if_pos hhead, if_pos (himp hskip hhead)]
        exact .none
      · rw [if_neg hhead, if_neg fun h => hhead (himp hskip.symm h)]
        refine .some (fun o o' => ?_) ?_
        · rw [ht, ht', List.take_succ_cons, List.take_succ_cons]
          exact OperatorText.alike_star o o' hplain
        · rw [ht, ht']
          exact hskip
  · have hstar' : ¬ ∃ t, c'.rest = '*' :: t := by
      rintro ⟨t', ht'⟩
      obtain ⟨t, ht, -⟩ := Alike.star (ht' ▸ hc.symm.alike) hσ
      exact hstar ⟨t, ht⟩
    rw [eval_star_eq_none hstar, eval_star_eq_none hstar']
    exact .none

theorem respects_operator {S : (r : Rule) → r.Value → r.Value → Prop}
    {home : Rule → List Bracket → Prop} {p : Phrase Unit} (h : Signs call σ p) :
    (operator p).Respects call S home σ fun τ o o' => τ = σ ∧ o.Alike o' := by
  intro c c' hc
  have h := h c c' hc
  simp only [Peg.eval]
  generalize Peg.eval call blank p c = x at h ⊢
  generalize Peg.eval call blank p c' = x' at h ⊢
  cases h with
  | none => exact .none
  | some text rest =>
    refine .some ⟨rfl, ?_⟩ rest
    simpa [Cursor.advance, Cursor.takeBytes_advance] using text c.offset c'.offset

end Phrase

/-! ## The rules -/

/-- Where a rule is called: the pieces of a template in its text, all others in code. -/
def Rule.At : Rule → List Bracket → Prop
  | .templateChars, σ | .templateSubstitution, σ => inTemplate σ = true
  | _, σ => inTemplate σ = false

/-- Values of a rule that are equal but for the places they name. -/
def Rule.Alike : (r : Rule) → r.Value → r.Value → Prop
  | .endOfInput, _, _ | .restMarker, _, _ | .varKeyword, _, _ | .letKeyword, _, _
  | .constKeyword, _, _ | .functionKeyword, _, _ | .returnKeyword, _, _ | .ifKeyword, _, _
  | .elseKeyword, _, _ | .whileKeyword, _, _ => True
  | .number, t, t' | .string, t, t' | .boolean, t, t' | .null, t, t' | .this, t, t'
  | .identifier, t, t' | .propertyName, t, t' => t.text = t'.text
  | .declarationKeyword, v, v' => v = v'
  | .unaryOperator, v, v' => v = v'
  | .propertyKey, v, v' => v = v'
  | .params, v, v' | .arrowParams, v, v' => Both SameShapes v v'
  | .param, p, p' => p.Alike p'
  | .orOperator, o, o' | .andOperator, o, o' | .equalityOperator, o, o'
  | .relationalOperator, o, o' | .additiveOperator, o, o' | .multiplicativeOperator, o, o'
  | .powerOperator, o, o' => o.Alike o'
  | .callArguments, s, s' | .memberSuffix, s, s' | .indexSuffix, s, s' => s.Alike s'
  | .templateChars, p, p' | .templateSubstitution, p, p' => p.Alike p'
  | .program, v, v' | .declaration, v, v' | .declarator, v, v' | .functionDeclaration, v, v'
  | .returnStatement, v, v' | .ifStatement, v, v' | .whileStatement, v, v' | .block, v, v'
  | .emptyStatement, v, v' | .expressionStatement, v, v' | .expression, v, v'
  | .assignment, v, v' | .arrowFunction, v, v' | .arrowBody, v, v' | .logicalOr, v, v'
  | .logicalAnd, v, v' | .equality, v, v' | .relational, v, v' | .additive, v, v'
  | .multiplicative, v, v' | .exponent, v, v' | .unary, v, v' | .postfixChain, v, v'
  | .functionExpression, v, v' | .array, v, v' | .object, v, v' | .methodProperty, v, v'
  | .keyedProperty, v, v' | .shorthandProperty, v, v' | .template, v, v' => Both SameShape v v'

namespace Phrase

section Rules

variable {call : (r : Rule) → Cursor → Option (r.Value × Cursor)} {σ : List Bracket} {α : Type}

/-- A phrase matches alike in texts that are alike and leaves open what was, if all rules do. -/
abbrev Keeps (call : (r : Rule) → Cursor → Option (r.Value × Cursor)) (p : Phrase α)
    (σ : List Bracket) (R : α → α → Prop) : Prop :=
  p.Respects call Rule.Alike Rule.At σ fun τ v v' => τ = σ ∧ R v v'

theorem respects_lit {s : String} {Q : List Bracket → Unit → Unit → Prop}
    (hσ : inTemplate σ = false) (hs : s.toList.all Lexeme.isPlain = true) (h : Q σ () ()) :
    (Peg.lit s).Respects call Rule.Alike Rule.At σ Q :=
  ⟨σ, readsAlike_plain hσ hs, h⟩

/-- One or more parts separated by commas. -/
theorem respects_commaList {p : Phrase α} {A : α → α → Prop}
    {Q : List Bracket → List α → List α → Prop} (hσ : inTemplate σ = false) (h : p.Keeps call σ A)
    (hQ : ∀ as as', List.Forall₂ A as as' → Q σ as as') :
    (Peg.commaList p).Respects call Rule.Alike Rule.At σ Q := by
  refine h.mono ?_
  rintro τ a a' ⟨rfl, ha⟩
  exact ⟨hσ, hσ, A, respects_lit hσ (by decide) ⟨hσ, h⟩, fun as as' has => hQ _ _ (.cons ha has)⟩

theorem keeps_rule {r : Rule} (h : r.At σ) : (rule r).Keeps call σ r.Alike :=
  ⟨h, fun _ _ hv => ⟨rfl, hv⟩⟩

theorem keeps_statement (hσ : inTemplate σ = false) : statement.Keeps call σ (Both SameShape) :=
  ⟨keeps_rule hσ, keeps_rule hσ, keeps_rule hσ, keeps_rule hσ, keeps_rule hσ, keeps_rule hσ,
    keeps_rule hσ, keeps_rule hσ⟩

theorem keeps_property (hσ : inTemplate σ = false) : property.Keeps call σ (Both SameShape) :=
  ⟨keeps_rule hσ, keeps_rule hσ, keeps_rule hσ⟩

theorem keeps_token {scan : List Char → Option Nat} {text : List Char → List Char}
    (h : ScansAlike σ scan) : (token scan text).Keeps call σ fun t t' => t.text = t'.text :=
  ⟨h, fun _ _ _ => ⟨rfl, rfl⟩⟩

theorem keeps_leaf {p : Phrase Token} {kind : String → Kind RawTree}
    (h : p.Keeps call σ fun t t' => t.text = t'.text) :
    (leaf p kind).Keeps call σ (Both SameShape) :=
  h.mono fun _ _ _ ht => ⟨ht.1, .node (by rw [ht.2])⟩

theorem keeps_primary (hσ : inTemplate σ = false) : primary.Keeps call σ (Both SameShape) := by
  refine ⟨keeps_rule hσ, ?_, keeps_rule hσ, keeps_leaf (keeps_rule hσ), keeps_leaf (keeps_rule hσ),
    keeps_leaf (keeps_rule hσ), keeps_leaf (keeps_rule hσ), keeps_leaf (keeps_rule hσ),
    keeps_rule hσ, keeps_rule hσ, keeps_leaf (keeps_rule hσ)⟩
  exact respects_lit hσ (by decide) ⟨hσ, hσ, fun _ _ h => ⟨hσ, respects_lit hσ (by decide) ⟨rfl, h⟩⟩⟩

theorem keeps_chain {operand : Phrase Built} {op : Phrase OperatorText} (hσ : inTemplate σ = false)
    (h : operand.Keeps call σ (Both SameShape)) (hop : op.Keeps call σ OperatorText.Alike) :
    (chain operand op).Keeps call σ (Both SameShape) := by
  refine h.mono ?_
  rintro τ v v' ⟨rfl, hv⟩
  refine ⟨hσ, hσ, fun s s' => s.1.Alike s'.1 ∧ Both SameShape s.2 s'.2, ?_, fun _ _ hsteps =>
    ⟨rfl, Build.both_binaryChain hv hsteps⟩⟩
  refine hop.mono ?_
  rintro υ o o' ⟨rfl, ho⟩
  exact ⟨hσ, h.mono fun _ _ _ hw => ⟨hw.1, ho, hw.2⟩⟩

theorem keeps_init (hσ : inTemplate σ = false) : init.Keeps call σ (Both SameShape) :=
  respects_lit hσ (by decide) ⟨hσ, hσ, fun _ _ h => ⟨rfl, h⟩⟩

theorem readsAlike_openBrace (hσ : inTemplate σ = false) :
    ∀ s ∈ ["\x7b".toList], ∃ τ, ReadsAlike σ s τ := by
  rw [List.forall_mem_singleton]
  exact ⟨_, readsAlike_open hσ⟩

theorem readsAlike_afterEquals (hσ : inTemplate σ = false) :
    ∀ s ∈ ["=".toList, ">".toList], ∃ τ, ReadsAlike σ s τ := by
  have hplain : (["=".toList, ">".toList].all (·.all Lexeme.isPlain)) = true := by decide
  exact fun s hs => ⟨σ, readsAlike_plain hσ (List.all_eq_true.mp hplain s hs)⟩

/-- The body of a rule matches alike in texts that are alike. -/
theorem keeps_body : ∀ (r : Rule) (σ : List Bracket), r.At σ → (body r).Keeps call σ r.Alike := by
  intro r σ hσ
  cases r with
  | endOfInput => exact ⟨scansAlike_endOfInput, fun _ => ⟨rfl, trivial⟩⟩
  | varKeyword | letKeyword | constKeyword | functionKeyword | returnKeyword | ifKeyword
  | elseKeyword | whileKeyword => exact ⟨scansAlike_keyword hσ _, fun _ => ⟨rfl, trivial⟩⟩
  | restMarker => exact respects_lit hσ (by decide) ⟨rfl, trivial⟩
  | declarationKeyword =>
    exact ⟨⟨hσ, fun _ _ _ => ⟨rfl, rfl⟩⟩, ⟨hσ, fun _ _ _ => ⟨rfl, rfl⟩⟩,
      ⟨hσ, fun _ _ _ => ⟨rfl, rfl⟩⟩⟩
  | orOperator | andOperator => exact respects_operator (.lit (readsAlike_plain hσ (by decide)))
  | equalityOperator | additiveOperator =>
    exact respects_operator (.choice (.lit (readsAlike_plain hσ (by decide)))
      (.lit (readsAlike_plain hσ (by decide))))
  | relationalOperator =>
    exact respects_operator (.choice (.lit (readsAlike_plain hσ (by decide)))
      (.choice (.lit (readsAlike_plain hσ (by decide)))
        (.choice (.lit (readsAlike_plain hσ (by decide)))
          (.lit (readsAlike_plain hσ (by decide))))))
  | multiplicativeOperator =>
    exact respects_operator (.choice (.star hσ) (.choice (.lit (readsAlike_slash hσ))
      (.lit (readsAlike_plain hσ (by decide)))))
  | powerOperator => exact respects_operator (.lit (readsAlike_power hσ))
  | unaryOperator =>
    exact ⟨respects_lit hσ (by decide) ⟨rfl, rfl⟩, respects_lit hσ (by decide) ⟨rfl, rfl⟩⟩
  -- Statements
  | program =>
    exact ⟨hσ, hσ, _, keeps_statement hσ, fun _ _ has => ⟨hσ, hσ, fun _ _ _ _ _ =>
      ⟨rfl, Build.both_program has⟩⟩⟩
  | declaration =>
    refine ⟨hσ, ?_⟩
    rintro keyword _ rfl
    exact ⟨hσ, respects_commaList hσ (keeps_rule hσ) fun _ _ has => ⟨hσ,
      respects_lit hσ (by decide) fun _ _ => ⟨rfl, Build.both_declaration keyword has⟩⟩⟩
  | declarator =>
    exact ⟨hσ, fun _ _ hname => ⟨hσ, fun _ _ => ⟨rfl, Build.both_declarator hname .none⟩,
      (keeps_init hσ).mono fun _ _ _ h _ _ => ⟨h.1, Build.both_declarator hname (.some h.2)⟩⟩⟩
  | functionDeclaration =>
    exact ⟨hσ, fun _ _ _ => ⟨hσ, hσ, fun _ _ hname => ⟨hσ, hσ, fun _ _ hps => ⟨hσ, hσ,
      fun _ _ hbody _ _ => ⟨rfl, Build.both_functionDeclaration hname hps hbody⟩⟩⟩⟩⟩
  | params =>
    exact respects_lit hσ (by decide) ⟨hσ,
      ⟨hσ, respects_lit hσ (by decide) ⟨rfl, Build.both_params .nil⟩⟩,
      respects_commaList hσ (keeps_rule hσ) fun _ _ has =>
        ⟨hσ, respects_lit hσ (by decide) ⟨rfl, Build.both_params has⟩⟩⟩
  | param =>
    exact ⟨⟨hσ, hσ, fun _ _ hname => ⟨hσ, fun _ _ => ⟨rfl, rfl, hname, .none⟩,
        (keeps_init hσ).mono fun _ _ _ h _ _ => ⟨h.1, rfl, hname, .some h.2⟩⟩⟩,
      hσ, fun _ _ _ => ⟨hσ, hσ, fun _ _ hname => ⟨hσ, fun _ _ => ⟨rfl, rfl, hname, .none⟩,
        (keeps_init hσ).mono fun _ _ _ h _ _ => ⟨h.1, rfl, hname, .some h.2⟩⟩⟩⟩
  | returnStatement =>
    exact ⟨hσ, fun _ _ _ => ⟨hσ,
      ⟨hσ, respects_lit hσ (by decide) fun _ _ => ⟨rfl, Build.both_returnStatement .none⟩⟩,
      hσ, fun _ _ h => ⟨hσ, respects_lit hσ (by decide) fun _ _ =>
        ⟨rfl, Build.both_returnStatement (.some h)⟩⟩⟩⟩
  | ifStatement =>
    refine ⟨hσ, fun _ _ _ => ⟨hσ, respects_lit hσ (by decide) ⟨hσ, hσ, fun test test' htest => ⟨hσ,
      respects_lit hσ (by decide) ⟨hσ, (keeps_statement hσ).mono ?_⟩⟩⟩⟩⟩
    rintro _ consequent consequent' ⟨rfl, hcons⟩
    exact ⟨hσ, fun _ _ => ⟨rfl, Build.both_ifStatement htest hcons .none⟩, hσ, fun _ _ _ => ⟨hσ,
      (keeps_statement hσ).mono fun _ _ _ h _ _ =>
        ⟨h.1, Build.both_ifStatement htest hcons (.some h.2)⟩⟩⟩
  | whileStatement =>
    exact ⟨hσ, fun _ _ _ => ⟨hσ, respects_lit hσ (by decide) ⟨hσ, hσ, fun _ _ htest => ⟨hσ,
      respects_lit hσ (by decide) ⟨hσ, (keeps_statement hσ).mono fun _ _ _ h _ _ =>
        ⟨h.1, Build.both_whileStatement htest h.2⟩⟩⟩⟩⟩⟩
  | block =>
    exact ⟨_, readsAlike_open hσ, rfl, rfl, _, keeps_statement rfl, fun _ _ has => ⟨rfl, σ,
      readsAlike_close rfl, fun _ _ => ⟨rfl, Build.both_block has⟩⟩⟩
  | emptyStatement =>
    exact respects_lit hσ (by decide) fun _ _ => ⟨rfl, .node rfl⟩
  | expressionStatement =>
    exact ⟨readsAlike_openBrace hσ, hσ, hσ, fun _ _ h => ⟨hσ, respects_lit hσ (by decide) fun _ _ =>
      ⟨rfl, Build.both_expressionStatement h⟩⟩⟩
  -- Expressions
  | expression => exact keeps_rule hσ
  | assignment =>
    exact ⟨keeps_rule hσ, hσ, fun _ _ hv => ⟨hσ, fun _ _ => ⟨rfl, Build.both_assignment hv .none⟩,
      respects_lit hσ (by decide) ⟨hσ, readsAlike_afterEquals hσ, hσ, hσ, fun _ _ h _ _ =>
        ⟨rfl, Build.both_assignment hv (.some h)⟩⟩⟩⟩
  | arrowFunction =>
    exact ⟨hσ, fun _ _ hps => ⟨hσ, respects_lit hσ (by decide) ⟨hσ, hσ, fun _ _ hbody _ _ =>
      ⟨rfl, Build.both_arrowFunction hps hbody⟩⟩⟩⟩
  | arrowParams =>
    exact ⟨⟨hσ, fun _ _ h => ⟨rfl, Build.both_bareParam h⟩⟩, keeps_rule hσ⟩
  | arrowBody =>
    exact ⟨keeps_rule hσ, keeps_rule hσ⟩
  | logicalOr | logicalAnd | equality | relational | additive | multiplicative =>
    exact keeps_chain hσ (keeps_rule hσ) (keeps_rule hσ)
  | exponent =>
    exact ⟨hσ, fun _ _ hv => ⟨hσ, fun _ _ => ⟨rfl, Build.both_exponent hv .none⟩, hσ, fun _ _ _ =>
      ⟨hσ, hσ, fun _ _ h _ _ => ⟨rfl, Build.both_exponent hv (.some h)⟩⟩⟩⟩
  | unary =>
    refine ⟨⟨hσ, ?_⟩, keeps_rule hσ⟩
    rintro op _ rfl
    exact ⟨hσ, hσ, fun _ _ h _ _ => ⟨rfl, Build.both_unary op h⟩⟩
  | postfixChain =>
    refine (keeps_primary hσ).mono ?_
    rintro _ first first' ⟨rfl, hfirst⟩
    exact ⟨hσ, hσ, Suffix.Alike, ⟨keeps_rule hσ, keeps_rule hσ, keeps_rule hσ⟩, fun _ _ has =>
      ⟨rfl, Build.both_postfixChain hfirst has⟩⟩
  | callArguments =>
    exact respects_lit hσ (by decide) ⟨hσ,
      ⟨hσ, respects_lit hσ (by decide) fun _ _ => ⟨rfl, .call .nil⟩⟩,
      respects_commaList hσ (keeps_rule hσ) fun _ _ has =>
        ⟨hσ, respects_lit hσ (by decide) fun _ _ => ⟨rfl, .call has⟩⟩⟩
  | memberSuffix =>
    exact respects_lit hσ (by decide) ⟨hσ, hσ, fun _ _ h _ _ => ⟨rfl, .member h⟩⟩
  | indexSuffix =>
    exact respects_lit hσ (by decide) ⟨hσ, hσ, fun _ _ h => ⟨hσ,
      respects_lit hσ (by decide) fun _ _ => ⟨rfl, .index h⟩⟩⟩
  | functionExpression =>
    exact ⟨hσ, fun _ _ _ => ⟨hσ,
      ⟨hσ, hσ, fun _ _ hps => ⟨hσ, hσ, fun _ _ hbody _ _ =>
        ⟨rfl, Build.both_functionExpression rfl hps hbody⟩⟩⟩,
      hσ, fun _ _ hname => ⟨hσ, hσ, fun _ _ hps => ⟨hσ, hσ, fun _ _ hbody _ _ =>
        ⟨rfl, Build.both_functionExpression (congrArg some hname) hps hbody⟩⟩⟩⟩⟩
  | array =>
    exact respects_lit hσ (by decide) ⟨hσ,
      ⟨hσ, respects_lit hσ (by decide) fun _ _ => ⟨rfl, Build.both_array .nil⟩⟩,
      respects_commaList hσ (keeps_rule hσ) fun _ _ has => ⟨hσ,
        ⟨hσ, respects_lit hσ (by decide) fun _ _ => ⟨rfl, Build.both_array has⟩⟩,
        respects_lit hσ (by decide) ⟨hσ, respects_lit hσ (by decide) fun _ _ =>
          ⟨rfl, Build.both_array has⟩⟩⟩⟩
  | object =>
    exact ⟨.brace :: σ, readsAlike_open hσ, rfl,
      ⟨rfl, σ, readsAlike_close rfl, fun _ _ => ⟨rfl, Build.both_object .nil⟩⟩,
      respects_commaList rfl (keeps_property rfl) fun _ _ has => ⟨rfl,
        ⟨rfl, σ, readsAlike_close rfl, fun _ _ => ⟨rfl, Build.both_object has⟩⟩,
        respects_lit rfl (by decide) ⟨rfl, σ, readsAlike_close rfl, fun _ _ =>
          ⟨rfl, Build.both_object has⟩⟩⟩⟩
  | methodProperty =>
    refine ⟨hσ, ?_⟩
    rintro key _ rfl
    exact ⟨hσ, hσ, fun _ _ hps => ⟨hσ, hσ, fun _ _ hbody _ _ =>
      ⟨rfl, Build.both_methodProperty key hps hbody⟩⟩⟩
  | keyedProperty =>
    refine ⟨hσ, ?_⟩
    rintro key _ rfl
    exact ⟨hσ, respects_lit hσ (by decide) ⟨hσ, hσ, fun _ _ h _ _ =>
      ⟨rfl, Build.both_keyedProperty key h⟩⟩⟩
  | shorthandProperty =>
    exact ⟨hσ, fun _ _ h _ _ => ⟨rfl, Build.both_shorthandProperty h⟩⟩
  | propertyKey =>
    exact ⟨⟨hσ, fun _ _ h => ⟨rfl, congrArg PropertyKey.string h⟩⟩,
      ⟨hσ, fun _ _ h => ⟨rfl, congrArg PropertyKey.identifier h⟩⟩⟩
  -- Words and literals
  | number => exact keeps_token (scansAlike_number hσ)
  | string => exact keeps_token (scansAlike_string hσ)
  | template =>
    exact ⟨.template :: σ, readsAlike_template hσ, rfl, rfl, TemplatePart.Alike,
      ⟨keeps_rule rfl, keeps_rule rfl⟩, fun _ _ has => ⟨rfl, σ, readsAlike_backquote rfl, fun _ _ =>
        ⟨rfl, Build.both_template has⟩⟩⟩
  | templateChars =>
    exact ⟨scansAlike_templateChars hσ, fun _ => ⟨rfl, .chars _⟩⟩
  | templateSubstitution =>
    exact ⟨.substitution :: σ, readsAlike_substitution hσ, rfl, rfl, fun _ _ h => ⟨rfl, σ,
      readsAlike_close rfl, rfl, .substitution h⟩⟩
  | boolean =>
    exact keeps_token ((scansAlike_keyword hσ "true").orElse (scansAlike_keyword hσ "false"))
  | null | this => exact keeps_token (scansAlike_keyword hσ _)
  | identifier => exact keeps_token (scansAlike_identifier hσ)
  | propertyName => exact keeps_token (scansAlike_name hσ)

end Rules

end Phrase

/-! ## Programs -/

open Grammar.Grounded (recognizeWithin recognizeWithin_reaches)

theorem agree_recognizeWithin : ∀ (depth : Nat) (r : Rule) (σ : List Bracket) (c c' : Cursor),
    r.At σ → Facing σ c.rest c'.rest →
    Peg.Agree (fun τ v v' => τ = σ ∧ r.Alike v v') (recognizeWithin echoGrammar depth r c)
      (recognizeWithin echoGrammar depth r c')
  | 0, _, _, _, _, _, _ => .none
  | depth + 1, r, σ, _, _, hσ, hc =>
    Peg.Respects.sound (agree_recognizeWithin depth) (recognizeWithin_reaches echoGrammar depth)
      (echoGrounded.recognizeWithin_length_lt depth) (echoGrounded.productive r)
      (Phrase.keeps_body r σ hσ) hc

/-- A rule matches alike in texts that are alike. -/
theorem agree_recognize (r : Rule) (σ : List Bracket) (c c' : Cursor) (hσ : r.At σ)
    (hc : Facing σ c.rest c'.rest) :
    Peg.Agree (fun τ v v' => τ = σ ∧ r.Alike v v') (echoGrounded.recognize r c)
      (echoGrounded.recognize r c') := by
  have hdepth : ∀ d, echoGrounded.room r d < max (echoGrounded.room r c) (echoGrounded.room r c') + 1 →
      echoGrounded.recognize r d = recognizeWithin echoGrammar
        (max (echoGrounded.room r c) (echoGrounded.room r c') + 1) r d :=
    fun d hd => echoGrounded.recognizeWithin_stable (Nat.lt_succ_self _) hd
  rw [hdepth c (by omega), hdepth c' (by omega)]
  exact agree_recognizeWithin _ r σ c c' hσ hc

namespace Phrase

/-- What a program is made of, before it is given its place. -/
def statements : Phrase (Range → Built) :=
  Build.program <$> (.succeed () *> Peg.list statement <* rule .endOfInput)

theorem eval_program (c : Cursor) : (rule .program).eval c =
    (statements.eval c).map fun m => (m.1 ⟨c.offset, m.2.offset⟩, m.2) := by
  rw [eval_rule, show body .program = .span (fun f range => f range) statements from rfl]
  simp only [eval, Peg.eval]
  cases Peg.eval echoGrounded.recognize Lexeme.blank statements c <;> rfl

/-- The blanks before the first statement are skipped. -/
theorem eval_statements_skip (c : Cursor) :
    statements.eval (c.advance (Lexeme.blank c.rest)) = statements.eval c := by
  have hskip : (c.advance (Lexeme.blank c.rest)).advance
      (Lexeme.blank (c.advance (Lexeme.blank c.rest)).rest) = c.advance (Lexeme.blank c.rest) := by
    rw [rest_advance_blank, Lexeme.blank_skip, Cursor.advance_zero]
  simp only [eval, statements, Functor.map, SeqLeft.seqLeft, SeqRight.seqRight, Peg.eval, hskip]

end Phrase

/-- Programs that are alike match alike. -/
theorem agree_program {u u' : List Char} (h : Alike [] u u') :
    Peg.Agree (fun _ => Rule.Alike .program) ((Phrase.rule .program).eval ⟨u, 0⟩)
      ((Phrase.rule .program).eval ⟨u', 0⟩) := by
  -- A program may start with blanks, so only what stands behind them is facing.
  have hinside : Peg.Agree (fun τ f f' => ∀ range range', τ = [] ∧
      Rule.Alike .program (f range) (f' range'))
      (Phrase.statements.eval ((Cursor.mk u 0).advance (Lexeme.blank u)))
      (Phrase.statements.eval ((Cursor.mk u' 0).advance (Lexeme.blank u'))) :=
    Peg.Respects.sound agree_recognize (fun _ _ _ _ => echoGrounded.recognize_reaches)
      (fun _ _ _ _ => echoGrounded.recognize_length_lt) (echoGrounded.productive .program)
      (Phrase.keeps_body .program [] rfl) (h.facing rfl)
  rw [Phrase.eval_statements_skip ⟨u, 0⟩, Phrase.eval_statements_skip ⟨u', 0⟩] at hinside
  rw [Phrase.eval_program, Phrase.eval_program]
  generalize Phrase.statements.eval ⟨u, 0⟩ = x at hinside ⊢
  generalize Phrase.statements.eval ⟨u', 0⟩ = x' at hinside ⊢
  cases hinside with
  | none => exact .none
  | some value rest => exact .some (value _ _).2 rest

/-- Programs that are alike are both rejected, or read as the same tree but for places. -/
theorem parseRaw_alike {u u' : List Char} (h : Alike [] u u') :
    (parseRaw u).toOption.map Tree.shape = (parseRaw u').toOption.map Tree.shape := by
  have hmatch := agree_program h
  rw [← matchProgram_matched, ← matchProgram_matched] at hmatch
  unfold parseRaw
  generalize matchProgram u = m at hmatch ⊢
  generalize matchProgram u' = m' at hmatch ⊢
  obtain ⟨matched, tracker⟩ := m
  obtain ⟨matched', tracker'⟩ := m'
  cases hmatch with
  | none => rfl
  | @some _ v v' c c' value rest =>
    cases value with
    | ok hshape => exact congrArg some hshape
    | error e e' => rfl

/-- How a program is read depends on its characters alone. -/
theorem parse_toOption (source : String) :
    (parse source .next).toOption.map (·.toTree.shape)
      = (parseRaw source.toList).toOption.map Tree.shape := by
  cases hraw : parseRaw source.toList with
  | error e =>
    cases hparse : parse source .next with
    | error e' => rfl
    | ok s =>
      obtain ⟨raw, hok, -⟩ := exists_raw_of_parse hparse
      rw [hraw] at hok
      cases hok
  | ok raw =>
    have hcheck : (parseRaw source.toList >>= checkDialect .next) = .ok raw := by
      rw [hraw]
      exact checkDialect_next raw
    obtain ⟨s, hparse, hshape⟩ := parse_of_parseRaw hcheck
    rw [hparse]
    exact congrArg some hshape

end Downlevel
