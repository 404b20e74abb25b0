import Downlevel.Proofs.Opening
import Downlevel.Proofs.Rebuild

/-!
# Lists of trees read back

Texts that are read one by one are read as a list, when printing puts commas between them
(`reads_commaList`) or gives each a line of its own (`reads_statements`).
-/

namespace Downlevel

open Lexeme

namespace Phrase

variable {α : Type}

/-- A phrase matches a text that starts with no blank up to `rest`. -/
structure Meets (p : Phrase α) (cs rest : List Char) (P : α → Prop) : Prop where
  skip : skip cs = cs
  reads : p.Reads cs rest P

/-! ## Commas -/

/-- Further trees of a list, each after a comma. -/
def commas (role : Role) (i : Nat) (ts : List (Tree Unit)) : List Char :=
  ts.flatMap fun t => ',' :: ' ' :: t.layout.text role i

theorem list_eq_commas (role : Role) (i : Nat) (t : Tree Unit) (ts : List (Tree Unit)) :
    Layout.list ", ".toList role i ((t :: ts).map Tree.layout)
      = t.layout.text role i ++ commas role i ts := by
  simp [Layout.list, commas, List.flatMap_map]

section Comma

variable {p : Phrase α} {R : Tree Unit → α → Prop} {role : Role} {i : Nat} {rest : List Char}
  {F : List Char → Prop} (hF : ∀ cs, F (',' :: cs))
include hF

theorem follows_commas (role : Role) (i : Nat) (hrest : F rest) (ts : List (Tree Unit)) :
    F (commas role i ts ++ rest) := by
  cases ts with
  | nil => exact hrest
  | cons t ts => exact hF _

/-- What follows an element is a comma or what follows the list, either of which it allows. -/
theorem reads_commas (hrest : F rest) (hcomma : [','].isPrefixOf (skip rest) = false) :
    ∀ {ts : List (Tree Unit)},
      (∀ t ∈ ts, ∀ {rest}, F rest → p.Meets (t.layout.text role i ++ rest) rest (R t)) →
      Reads (Peg.list (Peg.lit "," *> p)) (skip (commas role i ts ++ rest)) rest (List.Forall₂ R ts)
  | [], _ => by
    have hstop : Refuses (Peg.lit "," *> p) (skip rest) := .seq (.lit hcomma)
    exact (Reads.nil hstop).mono fun _ h => h ▸ .nil
  | t :: ts, h => by
    have ht := h t List.mem_cons_self (follows_commas hF role i hrest ts)
    have hsep : Reads (Peg.lit "," *> p)
        (',' :: ' ' :: (t.layout.text role i ++ (commas role i ts ++ rest)))
        (commas role i ts ++ rest) (R t) := by
      refine .seq (.sign rfl ?_)
      rw [skip_space, ht.skip]
      exact ht.reads
    have hcs : commas role i (t :: ts) ++ rest
        = ',' :: ' ' :: (t.layout.text role i ++ (commas role i ts ++ rest)) := by
      simp [commas]
    have hts := reads_commas hrest hcomma fun u hu => h u (List.mem_cons_of_mem _ hu)
    rw [hcs, skip_sign (by simp)]
    refine (Reads.cons rfl hsep fun _ _ => hts).mono ?_
    rintro _ ⟨v, vs, rfl, hv, hvs⟩
    exact .cons hv hvs

/-- Trees printed with commas between them are read as a list. -/
theorem meets_commaList {t : Tree Unit} {ts : List (Tree Unit)}
    (h : ∀ u ∈ t :: ts, ∀ {rest}, F rest → p.Meets (u.layout.text role i ++ rest) rest (R u))
    (hrest : F rest) (hcomma : [','].isPrefixOf (skip rest) = false) :
    Meets (Peg.commaList p) (Layout.list ", ".toList role i ((t :: ts).map Tree.layout) ++ rest) rest
      (List.Forall₂ R (t :: ts)) := by
  have ht := h t List.mem_cons_self (follows_commas hF role i hrest ts)
  have hts := reads_commas hF hrest hcomma fun u hu => h u (List.mem_cons_of_mem _ hu)
  rw [list_eq_commas, List.append_assoc]
  refine ⟨ht.skip, .seq (.map (Yields.mono ht.reads fun v left hv => ?_))⟩
  rw [hv.1]
  exact hts.mono fun _ hvs => .cons hv.2 hvs

/-- A list that may be empty. -/
theorem meets_optional_commaList {ts : List (Tree Unit)}
    (h : ∀ t ∈ ts, ∀ {rest}, F rest → p.Meets (t.layout.text role i ++ rest) rest (R t))
    (hrest : F rest) (hskip : skip rest = rest) (hcomma : [','].isPrefixOf rest = false)
    (hempty : p.Refuses rest) :
    Meets (Peg.optional (Peg.commaList p))
      (Layout.list ", ".toList role i (ts.map Tree.layout) ++ rest) rest
      fun v => List.Forall₂ R ts (v.getD []) := by
  cases ts with
  | nil => exact ⟨hskip, .missing (.seq (.map hempty)) ⟨rfl, .nil⟩⟩
  | cons t ts =>
    have hlist := meets_commaList hF h hrest (by rwa [hskip])
    exact ⟨hlist.skip, .present hlist.reads⟩

/-- A list after which another comma would be allowed. -/
theorem meets_optional_trailing {ts : List (Tree Unit)}
    (h : ∀ t ∈ ts, ∀ {rest}, F rest → p.Meets (t.layout.text role i ++ rest) rest (R t))
    (hrest : F rest) (hskip : skip rest = rest) (hcomma : [','].isPrefixOf rest = false)
    (hempty : p.Refuses rest) :
    Meets (Peg.optional (Peg.commaList p <* Peg.optional (Peg.lit ",")))
      (Layout.list ", ".toList role i (ts.map Tree.layout) ++ rest) rest
      fun v => List.Forall₂ R ts (v.getD []) := by
  cases ts with
  | nil => exact ⟨hskip, .missing (.seq (.seq (.map hempty))) ⟨rfl, .nil⟩⟩
  | cons t ts =>
    have hlist := meets_commaList hF h hrest (by rwa [hskip])
    refine ⟨hlist.skip, .present (.seq (Yields.mono hlist.reads fun v left hv => ?_))⟩
    rw [hv.1, hskip]
    exact .missing (.lit hcomma) ⟨hskip, hv.2⟩

end Comma

/-! ## Lines -/

section Lines

variable {i : Nat} {rest before after : List Char}

/-- A statement that is read back before anything but an `else`. -/
def MeetsStatement (t : Tree Unit) : Prop :=
  ∀ i {rest}, word (skip rest) ≠ "else".toList →
    statement.Meets (t.layout.text .statement i ++ rest) rest (Builds t)

/-- Statements with blanks before and after them. -/
def lines (before after : List Char) (i : Nat) (ts : List (Tree Unit)) : List Char :=
  ts.flatMap fun t => before ++ (t.layout.text .statement i ++ after)

/-- Statements on lines of their own are read as a list. -/
theorem reads_lines (hbefore : ∀ cs, skip (before ++ cs) = skip cs)
    (hafter : ∀ cs, skip (after ++ cs) = skip cs) (hrest : statement.Refuses (skip rest))
    (helse : word (skip rest) ≠ "else".toList) : ∀ {ts : List (Tree Unit)},
      (∀ t ∈ ts, MeetsStatement t) →
      Reads (Peg.list statement) (skip (lines before after i ts ++ rest)) rest
        (List.Forall₂ Builds ts) ∧
      word (skip (lines before after i ts ++ rest)) ≠ "else".toList
  | [], _ => ⟨(Reads.nil hrest).mono fun _ h => h ▸ .nil, helse⟩
  | t :: ts, h => by
    obtain ⟨hts, hword⟩ := reads_lines hbefore hafter hrest helse
      fun u hu => h u (List.mem_cons_of_mem _ hu)
    rw [← hafter] at hts hword
    have ht := h t List.mem_cons_self i hword
    have hcs : lines before after i (t :: ts) ++ rest = before
        ++ (t.layout.text .statement i ++ (after ++ (lines before after i ts ++ rest))) := by
      simp [lines]
    rw [hcs, hbefore, ht.skip]
    refine ⟨(Reads.cons rfl ht.reads fun _ _ => hts).mono ?_, word_ne_else ht.reads⟩
    rintro _ ⟨v, vs, rfl, hv, hvs⟩
    exact .cons hv hvs

end Lines

end Phrase

end Downlevel
