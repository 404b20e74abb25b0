import Downlevel.Proofs.Opening

/-!
# Expressions that look like parameters

An arrow function is tried before any other expression, so `(a) + b` is first read as the parameters
of an arrow function, up to the missing arrow. How a text starts decides that it is none: with a sign
that starts no parameters, or with a name after which none can go on (`Leading`).
-/

namespace Downlevel

open Lexeme

namespace Phrase

/-- The start of an arrow function in parentheses. -/
def arrowHead : Phrase (Except Fault (List RawTree)) :=
  rule .params <* Peg.lit "=>"

/-- A text that may follow a name in an expression, but not in a list of parameters. -/
structure Breaks (k : List Char) : Prop where
  ends : tokenEnds k = true
  comma : [','].isPrefixOf (skip k) = false
  close : [')'].isPrefixOf (skip k) = false
  equals : ['='].isPrefixOf (skip k) = true → ['=', '='].isPrefixOf (skip k) = true

/-- A text that starts with no parameters before an arrow, even in parentheses. -/
inductive Leading (cs : List Char) : Prop
  | sign (hid : identifier cs = none) (hopen : Opening cs) (hhead : arrowHead.Refuses cs)
  | name {x : String} {k : List Char} (hcs : cs = x.toList ++ k) (hx : isIdentifier x = true)
    (hk : Breaks k)

/-! ## Single parameters -/

theorem isPrefixOf_identifier {x : String} (hx : isIdentifier x = true) {c : Char}
    (hc : isNameStart c = false) (s k : List Char) : (c :: s).isPrefixOf (x.toList ++ k) = false := by
  obtain ⟨d, t, ht, hd⟩ := exists_cons_of_isName (isName_of_isIdentifier hx)
  rw [ht]
  refine isPrefixOf_cons_eq_false ?_ (by simp) _
  have : c ≠ d := by
    rintro rfl
    simp [hc] at hd
  simpa using this

/-- A name that no value follows is a parameter. -/
theorem reads_param_name {x : String} (hx : isIdentifier x = true) {k : List Char}
    (hk : tokenEnds k = true) (hinit : init.Refuses (skip k)) :
    (rule .param).Reads (x.toList ++ k) k fun _ => True := by
  refine .rule (.span (.seq (.seq (.map (.missing (.rule (.lit
    (isPrefixOf_identifier hx (by decide) ['.', '.'] k))) ?_)))))
  rw [skip_identifier hx]
  exact yields_identifier hx hk fun _ _ => .missing hinit fun _ => ⟨skip_skip k, trivial⟩

/-- A single parameter in parentheses. -/
theorem yields_params {cs mid : List Char} (hskip : skip cs = cs)
    (h : (rule .param).Reads cs (')' :: mid) fun _ => True) :
    (rule .params).Yields ('(' :: cs) fun _ left => left = mid := by
  have hclose : ∀ cs, skip (')' :: cs) = ')' :: cs := skip_sign (by simp)
  refine .rule (.map (.seq (.seq (.sign rfl ?_))))
  rw [hskip]
  refine .present (.seq (.map (Yields.mono h fun p left hp => ?_)))
  rw [hp.1]
  refine Yields.mono (Reads.nil (.seq (.lit (by rw [hclose]; rfl)))) fun ps left hps => ?_
  rw [hps.1, hclose]
  exact .lit rfl rfl

theorem refuses_arrowHead {cs mid : List Char} (hskip : skip cs = cs)
    (h : (rule .param).Reads cs (')' :: mid) fun _ => True)
    (hmid : ['=', '>'].isPrefixOf (skip mid) = false) : arrowHead.Refuses ('(' :: cs) :=
  .seq_right (Yields.mono (yields_params hskip h) fun _ left hleft => .lit (by rwa [hleft]))

/-! ## Texts that start with no parameters -/

theorem isPrefixOf_of_append {s t cs : List Char} (h : (s ++ t).isPrefixOf cs = true) :
    s.isPrefixOf cs = true := by
  rw [List.isPrefixOf_iff_prefix] at h ⊢
  exact (List.prefix_append s t).trans h

namespace Breaks

variable {k : List Char}

theorem arrow (h : Breaks k) : ['=', '>'].isPrefixOf (skip k) = false := by
  by_contra harrow
  rw [Bool.not_eq_false] at harrow
  have hequals := h.equals (isPrefixOf_of_append (t := ['>']) harrow)
  rw [List.isPrefixOf_iff_prefix] at harrow hequals
  obtain ⟨s, hs⟩ := harrow
  rw [← hs] at hequals
  simp at hequals

/-- An equals sign that is part of a comparison starts no value. -/
theorem init (h : Breaks k) : Phrase.init.Refuses (skip k) := by
  by_cases hequals : ['='].isPrefixOf (skip k) = true
  · obtain ⟨s, hs⟩ := List.isPrefixOf_iff_prefix.mp (h.equals hequals)
    have hskip : skip ('=' :: s) = '=' :: s := skip_sign (by simp) s
    rw [← hs, List.cons_append, List.singleton_append]
    refine .seq_right (.sign rfl ?_)
    rw [hskip]
    exact refuses_of_starts 14 rfl rfl
  · exact .seq (.lit (Bool.not_eq_true _ ▸ hequals))

end Breaks

theorem refuses_param_of_sign {cs : List Char} (hid : identifier cs = none) (hopen : Opening cs) :
    (rule .param).Refuses cs := by
  have hrest : "...".toList.isPrefixOf cs = false := hopen.isPrefixOf (by decide) ['.', '.']
  refine .rule (.span (.seq (.seq_right (.map (.missing (.rule (.lit hrest)) ?_)))))
  rw [hopen.skip]
  exact .rule (refuses_token hid)

/-- Parentheses around a text that starts with no parameter hold no parameters. -/
theorem refuses_params_of_refuses {cs : List Char} (hopen : Opening cs)
    (h : (rule .param).Refuses cs) : (rule .params).Refuses ('(' :: cs) := by
  refine .rule (.map (.seq_right (.seq (.sign rfl ?_))))
  rw [hopen.skip]
  refine .missing (.seq (.map h)) (.lit ?_)
  rw [hopen.skip]
  exact hopen.isPrefixOf (c := ')') (by decide) []

/-- A name in parentheses is no parameter unless the parenthesis is closed after it. -/
theorem refuses_params_of_name {x : String} (hx : isIdentifier x = true) {k : List Char}
    (hk : Breaks k) : (rule .params).Refuses ('(' :: (x.toList ++ k)) := by
  refine .rule (.map (.seq_right (.seq (.sign rfl ?_))))
  rw [skip_identifier hx]
  refine .present (.seq (.map (Yields.mono (reads_param_name hx hk.ends hk.init)
    fun p left hp => ?_)))
  rw [hp.1]
  have hcomma : Refuses (Peg.lit "," *> rule .param) (skip k) := .seq (.lit hk.comma)
  refine Yields.mono (Reads.nil hcomma) fun ps left hps => .lit ?_
  rw [hps.1]
  exact hk.close

namespace Leading

variable {cs : List Char}

/-- Nor does the text in parentheses. -/
theorem group (h : Leading cs) : arrowHead.Refuses ('(' :: cs) := by
  cases h with
  | sign hid hopen _ => exact .seq (refuses_params_of_refuses hopen (refuses_param_of_sign hid hopen))
  | name hcs hx hk =>
    rw [hcs]
    exact .seq (refuses_params_of_name hx hk)

theorem arrowFunction (h : Leading cs) : (rule .arrowFunction).Refuses cs := by
  refine .rule (.span (.seq (.map ?_)))
  cases h with
  | sign hid _ hhead =>
    have hname : (rule .identifier).Refuses cs := .rule (refuses_token hid)
    have hparams : Refuses (body .arrowParams <* Peg.lit "=>") cs := .seq_choice (.map hname) hhead
    exact .seq_rule hparams
  | name hcs hx hk =>
    rw [hcs]
    exact .seq_right (.rule (.left (.map (yields_identifier hx hk.ends fun _ _ => .lit hk.arrow))))

end Leading

theorem identifier_eq_none {c : Char} (hc : isNameStart c = false) (cs : List Char) :
    identifier (c :: cs) = none := by
  simp [identifier, Lexeme.name, hc]

theorem leading_of_sign {c : Char} (hc : isNameStart c = false)
    (hopen : c ∉ [' ', '\t', '\r', '\n', '/', '*', ')', ']', '\x7d', ',', ';', '.', '=', '>'])
    (hparen : c ≠ '(') (cs : List Char) : Leading (c :: cs) :=
  .sign (identifier_eq_none hc cs) ⟨c, cs, rfl, hopen⟩
    (.seq (refuses_params (isPrefixOf_cons_eq_false (by simpa using hparen.symm) (by simp) cs)))

theorem opening_of_isNameStart {c : Char} (hc : isNameStart c = true) (cs : List Char) :
    Opening (c :: cs) := by
  refine ⟨c, cs, rfl, fun hmem => ?_⟩
  have hall : ∀ c ∈ [' ', '\t', '\r', '\n', '/', '*', ')', ']', '\x7d', ',', ';', '.', '=', '>'],
      isNameStart c = false := by
    simp only [List.forall_mem_cons, List.not_mem_nil, false_implies, implies_true]
    decide
  simp [hall c hmem] at hc

theorem leading_of_word {c : Char} {cs : List Char} (hc : isNameStart c = true)
    (hid : identifier (c :: cs) = none) : Leading (c :: cs) :=
  .sign hid (opening_of_isNameStart hc cs)
    (.seq (refuses_params (isPrefixOf_of_isNameStart hc rfl [] cs)))

/-! ## What follows a name -/

theorem breaks_of_sign {k : List Char} (c : Char) (cs : List Char) (hk : skip k = c :: cs)
    (hends : tokenEnds k = true) (hc : c ≠ ',' ∧ c ≠ ')' ∧ c ≠ '=') : Breaks k := by
  refine ⟨hends, ?_, ?_, ?_⟩ <;> rw [hk]
  · exact isPrefixOf_cons_eq_false (by simpa using Ne.symm hc.1) (by simp) cs
  · exact isPrefixOf_cons_eq_false (by simpa using Ne.symm hc.2.1) (by simp) cs
  · rw [isPrefixOf_cons_eq_false (by simpa using Ne.symm hc.2.2) (by simp) cs]
    exact Bool.noConfusion

theorem breaks_operator (op : BinaryOp) (rest : List Char) :
    Breaks (' ' :: (op.symbol.toList ++ ' ' :: rest)) := by
  have hends : tokenEnds (' ' :: (op.symbol.toList ++ ' ' :: rest)) = true := rfl
  cases op with
  | equal =>
    have hskip : skip (' ' :: '=' :: '=' :: ' ' :: rest) = '=' :: '=' :: ' ' :: rest := by
      rw [skip_space]
      exact skip_sign (by simp) _
    refine ⟨rfl, ?_, ?_, fun _ => ?_⟩ <;> exact (congrArg _ hskip).trans rfl
  | divide => exact breaks_of_sign '/' (' ' :: rest) (by simp [BinaryOp.symbol]) hends (by decide)
  | _ =>
    refine breaks_of_sign _ _ ((skip_space _).trans (skip_cons rfl (by decide) _)) hends (by decide)

/-- A point before a name does not continue a number. -/
theorem tokenEnds_member {x : String} (hx : isName x = true) (k : List Char) :
    tokenEnds ('.' :: (x.toList ++ k)) = true := by
  obtain ⟨c, s, hs, hc⟩ := exists_cons_of_isName hx
  have hdigit : c.isDigit = false := isDigit_of_isNameStart hc
  rw [hs, List.cons_append, tokenEnds, hdigit]
  rfl

end Phrase

end Downlevel
