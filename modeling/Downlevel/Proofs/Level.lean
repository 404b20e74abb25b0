import Downlevel.Printer.Output
import Downlevel.Proofs.Formed
import Downlevel.Proofs.Matching

/-!
# Binding strength in the grammar

The grammar has a rule for each binding strength that printing knows (`level`). What is read at one
level is read at every weaker one, provided that what follows does not continue it (`Stops`,
`Reads.weaken`). Chains of operators and of suffixes are read one step at a time, with the value read
so far in hand (`Folds`).
-/

namespace Downlevel

open Lexeme

namespace Phrase

variable {α β γ : Type}

/-! ## Words and literals -/

theorem yields_token {scan : List Char → Option Nat} {text : List Char → List Char}
    {cs rest : List Char} {Q : Token → List Char → Prop}
    (hscan : scan (cs ++ rest) = some cs.length)
    (hQ : ∀ t : Token, t.text = String.ofList (text cs) → Q t rest) :
    (token scan text).Yields (cs ++ rest) Q := by
  refine Yields.span (Yields.lexeme hscan fun range => ?_)
  rw [List.take_left, List.drop_left]
  exact hQ _ rfl

theorem yields_identifier {s : String} {rest : List Char} {Q : Token → List Char → Prop}
    (hs : isIdentifier s = true) (hrest : tokenEnds rest = true)
    (hQ : ∀ t : Token, t.text = s → Q t rest) : (rule .identifier).Yields (s.toList ++ rest) Q :=
  .rule <| yields_token (identifier_append (by simpa [isIdentifier] using hs) hrest)
    fun t ht => hQ t (ht.trans String.ofList_toList)

theorem yields_propertyName {s : String} {rest : List Char} {Q : Token → List Char → Prop}
    (hs : isName s = true) (hrest : tokenEnds rest = true)
    (hQ : ∀ t : Token, t.text = s → Q t rest) : (rule .propertyName).Yields (s.toList ++ rest) Q :=
  .rule <| yields_token (name_append (by simpa [isName] using hs) hrest)
    fun t ht => hQ t (ht.trans String.ofList_toList)

theorem yields_number {s : String} {rest : List Char} {Q : Token → List Char → Prop}
    (hs : isNumber s = true) (hrest : tokenEnds rest = true)
    (hQ : ∀ t : Token, t.text = s → Q t rest) : (rule .number).Yields (s.toList ++ rest) Q :=
  .rule <| yields_token (number_append (by simpa [isNumber] using hs) hrest)
    fun t ht => hQ t (ht.trans String.ofList_toList)

theorem yields_string {s : String} {rest : List Char} {Q : Token → List Char → Prop}
    (hs : isStringContents s = true) (hQ : ∀ t : Token, t.text = s → Q t rest) :
    (rule .string).Yields ('"' :: (s.toList ++ '"' :: rest)) Q := by
  have hscan : string ('"' :: (s.toList ++ ['"']) ++ rest)
      = some ('"' :: (s.toList ++ ['"'])).length := by
    simpa using string_quoted (by simpa [isStringContents] using hs) rest
  have h : (token string fun cs => cs.tail.dropLast).Yields ('"' :: (s.toList ++ ['"']) ++ rest) Q :=
    yields_token hscan fun t ht => hQ t (ht.trans (by simp))
  rw [List.cons_append, List.append_assoc] at h
  exact .rule h

theorem yields_keyword {w : String} {rest : List Char} {Q : Unit → List Char → Prop}
    (hw : word w.toList = w.toList) (hrest : tokenEnds rest = true) (hQ : Q () rest) :
    (keyword w).Yields (w.toList ++ rest) Q := by
  refine Yields.lexeme (keyword_append hw hrest) ?_
  rwa [List.drop_left]

theorem refuses_keyword {w : String} {cs : List Char} (h : word cs ≠ w.toList) :
    (keyword w).Refuses cs :=
  .lexeme (if_neg h)

theorem refuses_token {scan : List Char → Option Nat} {text : List Char → List Char}
    {cs : List Char} (h : scan cs = none) : (token scan text).Refuses cs :=
  .span (.lexeme h)

/-! ## Levels -/

/-- What is read of an expression that binds at least as strongly as said. -/
def level : Nat → Phrase Built
  | 1 => rule .assignment
  | 2 => rule .logicalOr
  | 3 => rule .logicalAnd
  | 4 => rule .equality
  | 5 => rule .relational
  | 6 => rule .additive
  | 7 => rule .multiplicative
  | 8 => rule .exponent
  | 9 => rule .unary
  | 10 => rule .postfixChain
  | _ => primary

/-- The operators of a level at which they group to the left. -/
def operators : Nat → Phrase OperatorText
  | 2 => rule .orOperator
  | 3 => rule .andOperator
  | 4 => rule .equalityOperator
  | 5 => rule .relationalOperator
  | 6 => rule .additiveOperator
  | _ => rule .multiplicativeOperator

/-- An operator and its right operand. -/
def operation (p : Nat) : Phrase (OperatorText × Built) :=
  Prod.mk <$> operators p <*> level (p + 1)

def suffix : Phrase Suffix :=
  rule .callArguments <|> rule .memberSuffix <|> rule .indexSuffix

/-- The signs that continue an expression at a level. -/
def continuations (p : Nat) : List String :=
  (if p ≤ 10 then ["(", ".", "["] else []) ++ (if p ≤ 8 then ["**"] else []) ++
    (if p ≤ 7 then ["*", "/", "%"] else []) ++ (if p ≤ 6 then ["+", "-"] else []) ++
    (if p ≤ 5 then ["<", ">"] else []) ++ (if p ≤ 4 then ["==", "!="] else []) ++
    (if p ≤ 3 then ["&&"] else []) ++ (if p ≤ 2 then ["||"] else []) ++
    (if p ≤ 1 then ["="] else [])

/-- A text that does not continue an expression at a level that stands before it. -/
structure Stops (p : Nat) (rest : List Char) : Prop where
  ends : tokenEnds rest = true
  stops : ∀ s ∈ continuations p, s.toList.isPrefixOf (skip rest) = false

theorem continuations_subset {p q : Nat} (h : p ≤ q) : continuations q ⊆ continuations p := by
  intro s hs
  simp only [continuations, List.mem_append] at hs ⊢
  rcases hs with (((((((hs | hs) | hs) | hs) | hs) | hs) | hs) | hs) | hs <;> split at hs <;>
    simp_all <;> omega

theorem Stops.mono {p q : Nat} {rest : List Char} (h : Stops p rest) (hpq : p ≤ q) : Stops q rest :=
  ⟨h.ends, fun s hs => h.stops s (continuations_subset hpq hs)⟩

/-! ## Chains -/

/-- With `v` read so far, the steps at `cs` are read up to `rest`, and applied to `v` one after another
they give a value that satisfies `P`. -/
def Folds (apply : Built → α → Built) (step : Phrase α) (v : Built) (cs rest : List Char)
    (P : Built → Prop) : Prop :=
  Reads (Peg.list step) (skip cs) rest fun steps => P (steps.foldl apply v)

section Folds

variable {apply : Built → α → Built} {step : Phrase α} {cs mid rest : List Char} {P : Built → Prop}
  {v : Built}

theorem Folds.stop (hstep : step.Refuses (skip rest)) (hv : P v) :
    Folds apply step v rest rest P :=
  (Reads.nil hstep).mono fun _ h => by rwa [h]

theorem Folds.next {A : α → Prop} (hn : step.nullable Rule.mayBeEmpty = false)
    (h : step.Reads (skip cs) mid A) (hs : ∀ a, A a → Folds apply step (apply v a) mid rest P) :
    Folds apply step v cs rest P := by
  refine (Reads.cons hn h hs).mono ?_
  rintro _ ⟨a, as, rfl, -, has⟩
  exact has

/-- A first part, and steps that are applied to it. -/
theorem Folds.start {first : Phrase Built} {A : Built → Prop} {combine : Built → List α → Built}
    (hcombine : ∀ v steps, combine v steps = steps.foldl apply v) (h : first.Reads cs mid A)
    (hs : ∀ v, A v → Folds apply step v mid rest P) :
    Reads (.seq (fun f a => f a) (.map combine first) (Peg.list step)) cs rest P := by
  refine Yields.seq (Yields.map (Yields.mono h fun v left hv => ?_))
  rw [hv.1]
  exact Reads.mono (hs v hv.2) fun steps hsteps => by rwa [hcombine]

end Folds

/-- At the levels from two to seven, operators group to the left. -/
theorem reads_chain {p : Nat} (hp : 2 ≤ p) (hp' : p ≤ 7) {cs mid rest : List Char}
    {A P : Built → Prop} (h : (level (p + 1)).Reads cs mid A)
    (hs : ∀ v, A v → Folds Build.binary (operation p) v mid rest P) : (level p).Reads cs rest P := by
  have hchain : (chain (level (p + 1)) (operators p)).Reads cs rest P :=
    Folds.start (fun _ _ => rfl) h hs
  rcases (by omega : p = 2 ∨ p = 3 ∨ p = 4 ∨ p = 5 ∨ p = 6 ∨ p = 7)
    with rfl | rfl | rfl | rfl | rfl | rfl <;> exact Yields.rule hchain

theorem reads_postfixChain {cs mid rest : List Char} {A P : Built → Prop} (h : primary.Reads cs mid A)
    (hs : ∀ v, A v → Folds Build.suffixed suffix v mid rest P) :
    (rule .postfixChain).Reads cs rest P :=
  Yields.rule (Folds.start (fun _ _ => rfl) h hs)

theorem isPrefixOf_append_eq_false {s cs : List Char} (h : s.isPrefixOf cs = false)
    (t : List Char) : (s ++ t).isPrefixOf cs = false := by
  by_contra hst
  rw [Bool.not_eq_false, List.isPrefixOf_iff_prefix] at hst
  have := List.isPrefixOf_iff_prefix.mpr ((List.prefix_append s t).trans hst)
  simp [h] at this

/-- Operators start with signs that continue an expression. -/
theorem refuses_operation {p : Nat} (hp : 2 ≤ p) (hp' : p ≤ 7) {rest : List Char}
    (h : Stops p rest) : (operation p).Refuses (skip rest) := by
  refine Refuses.seq (Refuses.map ?_)
  rcases (by omega : p = 2 ∨ p = 3 ∨ p = 4 ∨ p = 5 ∨ p = 6 ∨ p = 7)
    with rfl | rfl | rfl | rfl | rfl | rfl
  · exact .rule (.slice (.span (.lit (h.stops "||" (by decide)))))
  · exact .rule (.slice (.span (.lit (h.stops "&&" (by decide)))))
  · exact .rule (.slice (.span (.choice (.lit (h.stops "==" (by decide)))
      (.lit (h.stops "!=" (by decide))))))
  · have hlt := h.stops "<" (by decide)
    have hgt := h.stops ">" (by decide)
    exact .rule (.slice (.span (.choice (.lit (isPrefixOf_append_eq_false hlt ['=']))
      (.choice (.lit (isPrefixOf_append_eq_false hgt ['='])) (.choice (.lit hlt) (.lit hgt))))))
  · exact .rule (.slice (.span (.choice (.lit (h.stops "+" (by decide)))
      (.lit (h.stops "-" (by decide))))))
  · exact .rule (.slice (.span (.choice (.seq (.lit (h.stops "*" (by decide))))
      (.choice (.lit (h.stops "/" (by decide))) (.lit (h.stops "%" (by decide)))))))

theorem refuses_suffix {rest : List Char} (h : Stops 10 rest) : suffix.Refuses (skip rest) :=
  .choice (.rule (.span (.map (.seq (.seq (.lit (h.stops "(" (by decide))))))))
    (.choice (.rule (.span (.map (.seq (.lit (h.stops "." (by decide)))))))
      (.rule (.span (.map (.seq (.seq (.lit (h.stops "[" (by decide)))))))))

/-! ## From a level to a weaker one -/

section Weaken

variable {cs rest : List Char} {P : Built → Prop}

theorem Reads.postfixChain (h : primary.Reads cs rest P) (hrest : Stops 10 rest) :
    (level 10).Reads cs rest P :=
  reads_postfixChain h fun _ hv => .stop (refuses_suffix hrest) hv

/-- What starts with an operand starts with no sign. -/
theorem Reads.unary (h : (level 10).Reads cs rest P) : (level 9).Reads cs rest P := by
  have hstart : (rule .postfixChain).starts (Rule.opens 3) cs = true := Yields.starts 3 h rfl
  have hsign : ∀ s ∈ ["!", "-"], s.toList.isPrefixOf cs = false := by
    intro s hs
    by_contra hcs
    rw [Bool.not_eq_false, List.isPrefixOf_iff_prefix] at hcs
    obtain ⟨tail, rfl⟩ := hcs
    simp only [List.mem_cons, List.not_mem_nil, or_false] at hs
    rcases hs with rfl | rfl <;> cases hstart
  exact Yields.rule (Yields.right (.span (.seq (.map (.rule (.choice (.map (.lit (hsign "!" (by simp))))
    (.map (.lit (hsign "-" (by simp))))))))) h)

theorem Reads.exponent (h : (level 9).Reads cs rest P) (hrest : Stops 8 rest) :
    (level 8).Reads cs rest P := by
  refine Yields.rule (Yields.span (Yields.seq (Yields.map (Yields.mono h fun v left hv => ?_))))
  rw [hv.1]
  refine Yields.missing (.seq (.rule (.slice (.span (.lit (hrest.stops "**" (by decide)))))))
    fun range => ⟨?_, hv.2⟩
  exact skip_skip rest

theorem Reads.chain {p : Nat} (hp : 2 ≤ p) (hp' : p ≤ 7) (h : (level (p + 1)).Reads cs rest P)
    (hrest : Stops p rest) : (level p).Reads cs rest P :=
  reads_chain hp hp' h fun _ hv => .stop (refuses_operation hp hp' hrest) hv

theorem Reads.assignment (h : (level 2).Reads cs rest P) (hrest : Stops 1 rest)
    (harrow : (rule .arrowFunction).Refuses cs) : (level 1).Reads cs rest P := by
  refine Yields.rule (Yields.right harrow (Yields.span (Yields.seq (Yields.map
    (Yields.mono h fun v left hv => ?_)))))
  rw [hv.1]
  refine Yields.missing (.seq (.seq (.lit (hrest.stops "=" (by decide))))) fun range => ⟨?_, hv.2⟩
  exact skip_skip rest

theorem Reads.weaken_one {p : Nat} (hp : 2 ≤ p) (hp' : p ≤ 10) (h : (level (p + 1)).Reads cs rest P)
    (hrest : Stops p rest) : (level p).Reads cs rest P := by
  rcases (by omega : p ≤ 7 ∨ p = 8 ∨ p = 9 ∨ p = 10) with hle | rfl | rfl | rfl
  · exact h.chain hp hle hrest
  · exact h.exponent hrest
  · exact h.unary
  · exact h.postfixChain hrest

/-- What is read at one level is read at every weaker one down to two. -/
theorem Reads.weaken {p q : Nat} (hp : 2 ≤ p) (hpq : p ≤ q) (hq : q ≤ 11)
    (h : (level q).Reads cs rest P) (hrest : Stops p rest) : (level p).Reads cs rest P := by
  obtain ⟨d, rfl⟩ := Nat.exists_eq_add_of_le hpq
  induction d generalizing p with
  | zero => exact h
  | succ d ih =>
    refine Reads.weaken_one hp (by omega) ?_ hrest
    refine ih (by omega) (hrest.mono (by omega)) (by omega) (by omega) ?_
    rwa [show p + 1 + d = p + (d + 1) by omega]

end Weaken

/-! ## Operators -/

theorem yields_operator {p : Phrase Unit} {piece rest : List Char}
    {Q : OperatorText → List Char → Prop} (h : p.Yields (piece ++ rest) fun _ left => left = rest)
    (hQ : ∀ v : OperatorText, v.chars = piece → Q v rest) : (operator p).Yields (piece ++ rest) Q := by
  refine Yields.slice (Yields.span (Yields.mono h ?_))
  rintro _ _ rfl range piece' hpiece
  exact hQ _ (List.append_cancel_right hpiece).symm

/-- What operator is meant does not depend on where it stands. -/
theorem operator_eq {v : OperatorText} {chars : List Char} (hv : v.chars = chars) :
    Build.operator v = Build.operator ⟨v.offset, chars⟩ := by
  rw [← hv]

theorem operator_symbol {op : BinaryOp} {v : OperatorText} (hv : v.chars = op.symbol.toList) :
    Build.operator v = .ok op := by
  rw [operator_eq hv]
  cases op <;> rfl

theorem reads_operator {p : Phrase Unit} {op : BinaryOp} {rest : List Char}
    (h : p.Yields (op.symbol.toList ++ ' ' :: rest) fun _ left => left = ' ' :: rest) :
    (operator p).Reads (op.symbol.toList ++ ' ' :: rest) rest fun v => Build.operator v = .ok op :=
  yields_operator h fun _ hv => ⟨skip_space rest, operator_symbol hv⟩

/-- An operator that groups to the left is read as itself. -/
theorem reads_operators {op : BinaryOp} (hop : op ≠ .power) {rest : List Char}
    (hrest : skip rest = rest) (hstar : ['*'].isPrefixOf rest = false) :
    (operators op.precedence).Reads (op.symbol.toList ++ ' ' :: rest) rest
      fun v => Build.operator v = .ok op := by
  cases op with
  | power => exact absurd rfl hop
  | or | and => exact .rule (reads_operator (.lit rfl rfl))
  | equal | lessEqual | add => exact .rule (reads_operator (.left (.lit rfl rfl)))
  | notEqual | subtract => exact .rule (reads_operator (.right (.lit rfl) (.lit rfl rfl)))
  | greaterEqual => exact .rule (reads_operator (.right (.lit rfl) (.left (.lit rfl rfl))))
  | lessThan =>
    exact .rule (reads_operator (.right (.lit rfl) (.right (.lit rfl) (.left (.lit rfl rfl)))))
  | greaterThan =>
    exact .rule (reads_operator
      (.right (.lit rfl) (.right (.lit rfl) (.right (.lit rfl) (.lit rfl rfl)))))
  | divide => exact .rule (reads_operator (.right (.seq (.lit rfl)) (.left (.lit rfl rfl))))
  | modulo =>
    exact .rule (reads_operator (.right (.seq (.lit rfl)) (.right (.lit rfl) (.lit rfl rfl))))
  | multiply =>
    -- This sign is read together with the blanks after it
    have hsign : Yields (Peg.lit "*" <* .absent ["*".toList] () : Phrase Unit)
        (['*', ' '] ++ rest) fun _ left => left = rest := by
      rw [List.cons_append, List.singleton_append]
      refine .seq (.sign rfl ?_)
      rw [skip_space, hrest]
      exact .absent (by simpa using hstar) rfl
    have hread : ∀ v : OperatorText, v.chars = ['*', ' '] → Build.operator v = .ok .multiply :=
      fun v hv => by rw [operator_eq hv]; rfl
    exact .rule (show Yields _ (['*', ' '] ++ rest) _ from
      yields_operator (.left hsign) fun v hv => ⟨rfl, hread v hv⟩)

/-! ## What follows an expression -/

theorem skip_sign {c : Char} (hc : c ∈ ['(', ')', '[', ']', '\x7b', '\x7d', ';', ',', '.', ':', '=', '`',
    '"', '!', '-']) (cs : List Char) : skip (c :: cs) = c :: cs := by
  simp only [List.mem_cons, List.not_mem_nil, or_false] at hc
  rcases hc with rfl | rfl | rfl | rfl | rfl | rfl | rfl | rfl | rfl | rfl | rfl | rfl | rfl | rfl |
    rfl <;> exact skip_cons rfl (by decide) cs

theorem isPrefixOf_cons_eq_false {s : List Char} {c : Char} (h : s.head?.all (· ≠ c) = true)
    (hs : s ≠ []) (cs : List Char) : s.isPrefixOf (c :: cs) = false := by
  cases s with
  | nil => exact absurd rfl hs
  | cons d s => simp_all [List.isPrefixOf]

/-- A short text that starts a longer one is decided by the first characters. -/
theorem isPrefixOf_append_of_length_le : ∀ {s l : List Char} (rest : List Char),
    s.length ≤ l.length → s.isPrefixOf (l ++ rest) = s.isPrefixOf l
  | [], _, _, _ => by simp
  | _ :: _, [], _, h => by simp at h
  | c :: s, d :: l, rest, h => by
    simp only [List.cons_append, List.isPrefixOf]
    rw [isPrefixOf_append_of_length_le rest (by simpa using h)]

theorem length_le_of_mem_continuations {p : Nat} {s : String} (hs : s ∈ continuations p) :
    s.toList.length ≤ 2 := by
  have hall : ∀ s ∈ continuations 0, s.toList.length ≤ 2 := by decide
  exact hall s (continuations_subset (Nat.zero_le p) hs)

/-- The signs that close an expression. -/
theorem stops_closing {c : Char} (hc : c ∈ [')', ',', ';', ']', '\x7d']) (rest : List Char) :
    Stops 1 (c :: rest) := by
  have hskip : skip (c :: rest) = c :: rest := skip_sign (by simp at hc ⊢; tauto) rest
  have hends : ∀ c ∈ [')', ',', ';', ']', '\x7d'], isNameChar c = false ∧ c ≠ '.' := by
    simp only [List.forall_mem_cons, List.not_mem_nil, false_implies, implies_true]
    decide
  have hhead : ∀ c ∈ [')', ',', ';', ']', '\x7d'], ∀ s ∈ continuations 1,
      s.toList.head?.all (· ≠ c) = true ∧ s.toList ≠ [] := by
    simp only [List.forall_mem_cons, List.not_mem_nil, false_implies, implies_true]
    decide
  refine ⟨?_, fun s hs => ?_⟩
  · rw [tokenEnds.eq_2 c rest (fun _ _ h => absurd h (hends c hc).2), (hends c hc).1]
    rfl
  · rw [hskip]
    exact isPrefixOf_cons_eq_false (hhead c hc s hs).1 (hhead c hc s hs).2 rest

/-- A sign of at least two characters after a space is decided by these characters. -/
theorem stops_sign {p : Nat} (sign : List Char) (hlen : 2 ≤ sign.length)
    (hskip : ∀ rest, skip (sign ++ rest) = sign ++ rest)
    (h : ∀ s ∈ continuations p, s.toList.isPrefixOf sign = false) (rest : List Char) :
    Stops p (' ' :: (sign ++ rest)) := by
  refine ⟨?_, fun s hs => ?_⟩
  · rw [tokenEnds.eq_2 _ _ (by simp)]
    rfl
  · rw [skip_space, hskip, isPrefixOf_append_of_length_le rest
      ((length_le_of_mem_continuations hs).trans hlen)]
    exact h s hs

theorem skip_symbol (op : BinaryOp) (rest : List Char) :
    skip (op.symbol.toList ++ ' ' :: rest) = op.symbol.toList ++ ' ' :: rest := by
  cases op with
  | divide => simp [BinaryOp.symbol]
  | _ => exact skip_cons rfl (by decide) _

/-- An operator continues no expression that binds more strongly. -/
theorem stops_operator (op : BinaryOp) (rest : List Char) :
    Stops (op.precedence + 1) (' ' :: (op.symbol.toList ++ ' ' :: rest)) := by
  have h := stops_sign (p := op.precedence + 1) (op.symbol.toList ++ [' '])
    (by cases op <;> decide) (fun rest => by simpa using skip_symbol op rest)
    (by cases op <;> decide) rest
  simpa using h

theorem stops_assignSign (rest : List Char) : Stops 2 (' ' :: '=' :: ' ' :: rest) :=
  stops_sign ['=', ' '] (by decide) (fun _ => skip_cons rfl (by decide) _) (by decide) rest

end Phrase

end Downlevel
