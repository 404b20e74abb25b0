import Downlevel.Proofs.Pieces

/-!
# Texts that differ in blanks

Two texts are `Alike` if they fall into the same pieces but for their blanks, and blanks stand in the
same places. Whatever a word, a literal or a sign takes up of one of them, it takes up of the other,
and leaves texts that are alike.

There is one place where it matters what the blanks are: the text of a multiplication sign includes
the blanks behind it, so behind such a sign either both texts have spaces only or neither has.
-/

namespace Downlevel

open Lexeme (blank skip)

/-- Whether the blanks that a text starts with are spaces only. -/
def blanksPlain (cs : List Char) : Bool :=
  (cs.take (blank cs)).all Lexeme.isSpace

/-- Texts that differ in blanks only, where `σ` stands open. -/
inductive Alike : List Bracket → List Char → List Char → Prop
  | same (σ : List Bracket) (u : List Char) : Alike σ u u
  | blank {σ : List Bracket} {u u' : List Char} (code : inTemplate σ = false)
    (left : 0 < Lexeme.blank u) (right : 0 < Lexeme.blank u')
    (rest : Alike σ (skip u) (skip u')) : Alike σ u u'
  | piece {σ : List Bracket} {p : Piece} {u u' : List Char} (solid : p.isBlank = false)
    (left : Piece.first σ (p.text ++ u) = some p) (right : Piece.first σ (p.text ++ u') = some p)
    (star : p = .sign ['*'] → blanksPlain u = blanksPlain u')
    (rest : Alike (p.behind σ) u u') : Alike σ (p.text ++ u) (p.text ++ u')

namespace Alike

variable {σ : List Bracket} {u u' t : List Char} {p : Piece}

theorem symm (h : Alike σ u u') : Alike σ u' u := by
  induction h with
  | same σ u => exact .same σ u
  | blank code left right _ ih => exact .blank code right left ih
  | piece solid left right star _ ih => exact .piece solid right left (fun e => (star e).symm) ih

/-- What is behind the blanks is alike. -/
theorem skip (h : Alike σ u u') (hσ : inTemplate σ = false) :
    Alike σ (skip u) (Lexeme.skip u') := by
  cases h with
  | same => exact .same _ _
  | blank _ _ _ rest => exact rest
  | piece solid left right star rest =>
    rw [Lexeme.skip, Lexeme.skip, Piece.blank_eq_zero_of_first hσ left solid,
      Piece.blank_eq_zero_of_first hσ right solid]
    exact .piece solid left right star rest

theorem eq_nil (h : Alike σ [] u') : u' = [] := by
  generalize hu : [] = u at h
  cases h with
  | same => rfl
  | blank _ left => simp [← hu, Lexeme.blank] at left
  | piece _ left => exact absurd (List.append_eq_nil_iff.mp hu.symm).1 (Piece.first_text left).1

/-- A piece that is not blank is the first of both texts if it is of one. -/
theorem of_first (h : Alike σ u u') (hp : Piece.first σ u = some p) (hsolid : p.isBlank = false) :
    ∃ t t', u = p.text ++ t ∧ u' = p.text ++ t' ∧ Piece.first σ u' = some p ∧
      (p = .sign ['*'] → blanksPlain t = blanksPlain t') ∧ Alike (p.behind σ) t t' := by
  cases h with
  | same =>
    exact ⟨_, _, Piece.eq_append_of_first hp, Piece.eq_append_of_first hp, hp, fun _ => rfl,
      .same _ _⟩
  | blank code left =>
    rw [Piece.blank_eq_zero_of_first code hp hsolid] at left
    exact absurd left (Nat.lt_irrefl 0)
  | piece solid left right star rest =>
    obtain rfl : _ = p := Option.some.inj (left.symm.trans hp)
    exact ⟨_, _, rfl, rfl, right, star, rest⟩

end Alike

/-! ## Texts with a comment replaced -/

/-- Whether the blanks that pieces start with are spaces only. -/
def spacesOnly (ps : List Piece) : Bool :=
  (ps.takeWhile Piece.isBlank).all Piece.isSpace

theorem spacesOnly_cons (p : Piece) (ps : List Piece) :
    spacesOnly (p :: ps) = if p.isSpace then spacesOnly ps else !p.isBlank := by
  rw [spacesOnly, List.takeWhile_cons]
  cases p <;> simp [spacesOnly, Piece.isSpace, Piece.isBlank]

namespace Splits

variable {σ : List Bracket} {u u' : List Char} {p : Piece} {ps : List Piece}

/-- Whether the blanks of a text are spaces only can be told from its pieces. -/
theorem blanksPlain_eq (hσ : inTemplate σ = false) (h : Splits σ u ps) :
    blanksPlain u = spacesOnly ps := by
  induction h with
  | nil => simp [blanksPlain, spacesOnly]
  | @cons σ p v ps first rest ih =>
    rw [spacesOnly_cons]
    by_cases hp : p.isBlank = true
    · obtain ⟨-, hblank⟩ := Piece.blank_of_first first hp
      rw [List.drop_left] at hblank
      have hall : blanksPlain (p.text ++ v) = (p.isSpace && blanksPlain v) := by
        rw [blanksPlain, hblank, List.take_length_add_append, List.all_append,
          Piece.all_isSpace_text first hp, blanksPlain]
      rw [hall, ih (by rwa [Piece.behind_of_isBlank hp]), hp]
      cases p.isSpace <;> rfl
    · have hzero := Piece.blank_eq_zero_of_first hσ first (by simpa using hp)
      have hspace : p.isSpace = false := by
        cases p with
        | space => exact absurd rfl hp
        | _ => rfl
      simp [blanksPlain, hzero, hspace, hp]

theorem skip_of_first (h : Piece.first σ (p.text ++ u) = some p) (hp : p.isBlank = true) :
    0 < blank (p.text ++ u) ∧ skip (p.text ++ u) = skip u := by
  obtain ⟨-, hblank⟩ := Piece.blank_of_first h hp
  have hpos := List.length_pos_iff.mpr (Piece.first_text h).1
  rw [List.drop_left] at hblank
  refine ⟨by omega, ?_⟩
  rw [skip, hblank, ← List.drop_drop, List.drop_left, skip]

/-- Texts that differ in one blank piece are alike. -/
theorem alike {before after : List Piece} {b b' : Piece} (hb : b.isBlank = true)
    (hb' : b'.isBlank = true) (h : Splits σ u (before ++ b :: after))
    (h' : Splits σ u' (before ++ b' :: after))
    (hstar : ∀ front back, before = front ++ .sign ['*'] :: back →
      spacesOnly (back ++ b :: after) = spacesOnly (back ++ b' :: after)) : Alike σ u u' := by
  induction before generalizing σ u u' with
  | nil =>
    cases h with
    | @cons _ _ v _ first rest =>
    cases h' with
    | @cons _ _ v' _ first' rest' =>
    obtain ⟨hpos, hskip⟩ := skip_of_first first hb
    obtain ⟨hpos', hskip'⟩ := skip_of_first first' hb'
    obtain rfl : v = v' := rest.text_eq.symm.trans rest'.text_eq
    refine .blank (Piece.blank_of_first first hb).1 hpos hpos' ?_
    rw [hskip, hskip']
    exact .same _ _
  | cons p before ih =>
    cases h with
    | @cons _ _ v _ first rest =>
    cases h' with
    | @cons _ _ v' _ first' rest' =>
    have halike : Alike (p.behind σ) v v' :=
      ih rest rest' fun front back e => hstar (p :: front) back (by rw [e, List.cons_append])
    by_cases hp : p.isBlank = true
    · have hσ := (Piece.blank_of_first first hp).1
      rw [Piece.behind_of_isBlank hp] at halike
      obtain ⟨hpos, hskip⟩ := skip_of_first first hp
      obtain ⟨hpos', hskip'⟩ := skip_of_first first' hp
      refine .blank hσ hpos hpos' ?_
      rw [hskip, hskip']
      exact halike.skip hσ
    · refine .piece (by simpa using hp) first first' ?_ halike
      rintro rfl
      have hσ : inTemplate σ = false := by
        by_contra hσ
        rw [Piece.first_of_template (by simpa using hσ), Piece.ofTemplate_of_pos] at first
        · cases first
        · simp [Piece.text, Lexeme.templateText]
      rw [rest.blanksPlain_eq hσ, rest'.blanksPlain_eq hσ]
      exact hstar [] before rfl

end Splits

/-! ## Signs -/

namespace Lexeme

/-- Whether a character stands for itself wherever it stands in code. -/
def isPlain (c : Char) : Bool :=
  !isSpace c && c ∉ ['/', '"', '*', '\x7b', '\x7d', '`']

theorem isPlain_of_isNameChar {c : Char} (h : isNameChar c = true) : isPlain c = true := by
  by_contra hc
  have hspecial : c ∈ [' ', '\t', '\r', '\n', '/', '"', '*', '\x7b', '\x7d', '`'] := by
    simp only [isPlain, isSpace] at hc
    simp only [List.mem_cons, List.not_mem_nil] at hc ⊢
    by_contra hne
    simp_all
  have hnone : [' ', '\t', '\r', '\n', '/', '"', '*', '\x7b', '\x7d', '`'].any isNameChar
      = false := by decide
  exact List.any_eq_false.mp hnone c hspecial h

end Lexeme

namespace Piece

variable {σ : List Bracket} {c : Char} {t u : List Char} {n : Nat}

theorem first_sign (hσ : inTemplate σ = false) (hs : Lexeme.isSpace c = false) (hslash : c ≠ '/')
    (hquote : c ≠ '"') (hstar : c ≠ '*') : first σ (c :: t) = some (.sign [c]) := by
  have hn : Lexeme.comment (c :: t) = none := Lexeme.comment.eq_3 _
    (fun _ e => hslash (List.cons.inj e).1) (fun _ e => hslash (List.cons.inj e).1)
  rw [first_of_code hσ hn, ofCode_cons hquote fun h => hstar h.1, if_neg (by simp [hs])]

theorem first_plain (hσ : inTemplate σ = false) (hc : Lexeme.isPlain c = true) :
    first σ (c :: t) = some (.sign [c]) ∧ behind σ (.sign [c]) = σ := by
  simp only [Lexeme.isPlain, Bool.and_eq_true, Bool.not_eq_true', decide_eq_true_eq, List.mem_cons,
    List.not_mem_nil, or_false, not_or] at hc
  refine ⟨first_sign hσ hc.1 hc.2.1 hc.2.2.1 hc.2.2.2.1, ?_⟩
  unfold behind
  split <;> simp_all

theorem first_slash (hσ : inTemplate σ = false) (h : blank ('/' :: t) = 0) :
    first σ ('/' :: t) = some (.sign ['/']) := by
  rw [first_of_code hσ (Lexeme.comment_of_blank h)]
  rfl

theorem first_power (hσ : inTemplate σ = false) :
    first σ ('*' :: '*' :: t) = some (.sign ['*', '*']) := by
  rw [first_of_code hσ (by simp [Lexeme.comment])]
  rfl

theorem first_star (hσ : inTemplate σ = false) (ht : t.head? ≠ some '*') :
    first σ ('*' :: t) = some (.sign ['*']) := by
  rw [first_of_code hσ (by simp [Lexeme.comment]), ofCode_cons (by decide) fun h => ht h.2]
  rfl

theorem first_string (hσ : inTemplate σ = false) (h : Lexeme.string u = some n) :
    first σ u = some (.string (u.take n)) := by
  unfold Lexeme.string at h
  split at h
  · rename_i cs
    have h' : Lexeme.string ('"' :: cs) = some n := h
    rw [first_of_code hσ (by simp [Lexeme.comment])]
    simp [ofCode, h']
  · cases h

theorem templateText_of_first {k : List Char} (hσ : inTemplate σ = true)
    (h : first σ u = some (.quasi k)) : Lexeme.templateText u = k.length := by
  rw [first_of_template hσ] at h
  unfold ofTemplate at h
  split at h
  · cases h
  · cases h
  · cases h
  · split_ifs at h
    · cases h
    · cases h
      rw [List.length_take, min_eq_left (Lexeme.templateText_le _)]

end Piece

namespace Alike

variable {σ : List Bracket} {u u' t : List Char} {c : Char}

theorem cons (h : Alike σ (c :: t) u') (hσ : inTemplate σ = false) (hc : Lexeme.isPlain c = true) :
    ∃ t', u' = c :: t' ∧ Alike σ t t' := by
  obtain ⟨hfirst, hbehind⟩ := Piece.first_plain (t := t) hσ hc
  obtain ⟨s, s', hs, rfl, -, -, hrest⟩ := h.of_first hfirst rfl
  obtain rfl : t = s := (List.cons.inj hs).2
  exact ⟨s', rfl, hbehind ▸ hrest⟩

/-- Plain characters at the start of a text. -/
theorem append {s : List Char} (h : Alike σ (s ++ t) u') (hσ : inTemplate σ = false)
    (hs : ∀ c ∈ s, Lexeme.isPlain c = true) : ∃ t', u' = s ++ t' ∧ Alike σ t t' := by
  induction s generalizing u' with
  | nil => exact ⟨u', rfl, h⟩
  | cons c s ih =>
    obtain ⟨v, rfl, hv⟩ := h.cons hσ (hs c List.mem_cons_self)
    obtain ⟨t', rfl, ht⟩ := ih hv fun d hd => hs d (List.mem_cons_of_mem c hd)
    exact ⟨t', rfl, ht⟩

/-- Runs of plain characters go as far in both texts. -/
theorem takeWhile {P : Char → Bool} (hP : ∀ c, P c = true → Lexeme.isPlain c = true)
    (h : Alike σ u u') (hσ : inTemplate σ = false) :
    u'.takeWhile P = u.takeWhile P ∧
      Alike σ (u.drop (u.takeWhile P).length) (u'.drop (u.takeWhile P).length) := by
  induction u generalizing u' with
  | nil =>
    obtain rfl := h.eq_nil
    exact ⟨rfl, h⟩
  | cons c u ih =>
    by_cases hc : P c = true
    · obtain ⟨t', rfl, ht⟩ := h.cons hσ (hP c hc)
      obtain ⟨heq, hrest⟩ := ih ht
      rw [List.takeWhile_cons_of_pos hc, List.takeWhile_cons_of_pos hc, heq]
      exact ⟨rfl, hrest⟩
    · have hnil : u'.takeWhile P = [] := by
        cases u' with
        | nil => rfl
        | cons d u' =>
          refine List.takeWhile_cons_of_neg fun hd => hc ?_
          obtain ⟨t, ht, -⟩ := h.symm.cons hσ (hP d hd)
          rwa [(List.cons.inj ht).1]
      rw [List.takeWhile_cons_of_neg hc, hnil]
      exact ⟨rfl, h⟩

/-- A star at the start of both texts: one of two, or a single one. -/
theorem star (h : Alike σ ('*' :: t) u') (hσ : inTemplate σ = false) : ∃ t', u' = '*' :: t' ∧
    (t.head? = some '*' ∧ t'.head? = some '*' ∨ blanksPlain t = blanksPlain t' ∧ Alike σ t t') := by
  by_cases ht : t.head? = some '*'
  · obtain ⟨v, rfl⟩ := List.head?_eq_some_iff.mp ht
    obtain ⟨-, s', -, rfl, -⟩ := h.of_first (Piece.first_power hσ) rfl
    exact ⟨'*' :: s', rfl, .inl ⟨rfl, rfl⟩⟩
  · obtain ⟨s, s', hs, rfl, -, hplain, hrest⟩ := h.of_first (Piece.first_star hσ ht) rfl
    obtain rfl : t = s := (List.cons.inj hs).2
    exact ⟨s', rfl, .inr ⟨hplain rfl, hrest⟩⟩

end Alike

/-! ## What is read of texts that are alike -/

/-- Texts that are alike, without blanks to skip at their start. -/
structure Facing (σ : List Bracket) (u u' : List Char) : Prop where
  alike : Alike σ u u'
  left : inTemplate σ = false → blank u = 0
  right : inTemplate σ = false → blank u' = 0

/-- A fixed text stands at the start of both texts if it does of one, and leaves `τ` open. -/
def ReadsAlike (σ : List Bracket) (s : List Char) (τ : List Bracket) : Prop :=
  ∀ ⦃u u' t⦄, Facing σ u u' → u = s ++ t → ∃ t', u' = s ++ t' ∧ Alike τ t t'

/-- A lexeme takes up the same of both texts. -/
def ScansAlike (σ : List Bracket) (scan : List Char → Option Nat) : Prop :=
  ∀ ⦃u u' n⦄, Facing σ u u' → scan u = some n →
    scan u' = some n ∧ u'.take n = u.take n ∧ Alike σ (u.drop n) (u'.drop n)

section Reading

variable {σ : List Bracket} {u u' t : List Char} {c : Char}

theorem Facing.symm (h : Facing σ u u') : Facing σ u' u :=
  ⟨h.alike.symm, h.right, h.left⟩

theorem Alike.facing (h : Alike σ u u') (hσ : inTemplate σ = false) :
    Facing σ (Lexeme.skip u) (Lexeme.skip u') :=
  ⟨h.skip hσ, fun _ => Lexeme.blank_skip u, fun _ => Lexeme.blank_skip u'⟩

theorem Alike.facing_of_template (h : Alike σ u u') (hσ : inTemplate σ = true) : Facing σ u u' :=
  ⟨h, fun hn => by simp [hσ] at hn, fun hn => by simp [hσ] at hn⟩

theorem ReadsAlike.isPrefixOf_eq {s : List Char} {τ : List Bracket} (h : ReadsAlike σ s τ)
    (hu : Facing σ u u') : s.isPrefixOf u = s.isPrefixOf u' := by
  have himp : ∀ {v v'}, Facing σ v v' → s <+: v → s <+: v' := by
    rintro v v' hv ⟨t, ht⟩
    obtain ⟨t', ht', -⟩ := h hv ht.symm
    exact ⟨t', ht'.symm⟩
  rw [Bool.eq_iff_iff, List.isPrefixOf_iff_prefix, List.isPrefixOf_iff_prefix]
  exact ⟨himp hu, himp hu.symm⟩

theorem ScansAlike.eq_none {scan : List Char → Option Nat} (h : ScansAlike σ scan)
    (hu : Facing σ u u') (hn : scan u = none) : scan u' = none := by
  by_contra hne
  obtain ⟨n, hscan⟩ := Option.ne_none_iff_exists'.mp hne
  simp [(h hu.symm hscan).1] at hn

/-- A text that makes up the first piece wherever it stands. -/
theorem readsAlike_of_first {p : Piece} (hp : p.isBlank = false)
    (h : ∀ t, (inTemplate σ = false → blank (p.text ++ t) = 0) → Piece.first σ (p.text ++ t) = some p) :
    ReadsAlike σ p.text (p.behind σ) := by
  rintro u u' t hu rfl
  obtain ⟨s, s', hs, rfl, -, -, hrest⟩ := hu.alike.of_first (h t hu.left) hp
  obtain rfl : t = s := List.append_cancel_left hs
  exact ⟨s', rfl, hrest⟩

theorem readsAlike_plain {s : List Char} (hσ : inTemplate σ = false)
    (hs : s.all Lexeme.isPlain = true) : ReadsAlike σ s σ := by
  rintro u u' t hu rfl
  exact hu.alike.append hσ (List.all_eq_true.mp hs)

theorem readsAlike_sign (hσ : inTemplate σ = false) (hs : Lexeme.isSpace c = false)
    (hslash : c ≠ '/') (hquote : c ≠ '"') (hstar : c ≠ '*') :
    ReadsAlike σ [c] (Piece.behind σ (.sign [c])) :=
  readsAlike_of_first (p := .sign [c]) rfl fun _ _ =>
    Piece.first_sign hσ hs hslash hquote hstar

theorem readsAlike_open (hσ : inTemplate σ = false) : ReadsAlike σ ['\x7b'] (.brace :: σ) :=
  readsAlike_sign hσ (by decide) (by decide) (by decide) (by decide)

theorem readsAlike_close {o : Bracket} (ho : inTemplate (o :: σ) = false) :
    ReadsAlike (o :: σ) ['\x7d'] σ :=
  readsAlike_sign ho (by decide) (by decide) (by decide) (by decide)

theorem readsAlike_slash (hσ : inTemplate σ = false) : ReadsAlike σ ['/'] σ :=
  readsAlike_of_first (p := .sign ['/']) rfl fun _ h => Piece.first_slash hσ (h hσ)

theorem readsAlike_power (hσ : inTemplate σ = false) : ReadsAlike σ ['*', '*'] σ :=
  readsAlike_of_first (p := .sign ['*', '*']) rfl fun _ _ => Piece.first_power hσ

theorem readsAlike_template (hσ : inTemplate σ = false) :
    ReadsAlike σ ['`'] (.template :: σ) := by
  have h := readsAlike_sign (c := '`') hσ (by decide) (by decide) (by decide) (by decide)
  simpa [Piece.behind, hσ] using h

theorem readsAlike_backquote (hσ : inTemplate σ = true) : ReadsAlike σ ['`'] σ.tail := by
  have h := readsAlike_of_first (σ := σ) (p := .sign ['`']) rfl fun _ _ =>
    Piece.first_of_template hσ
  simpa [Piece.behind, Piece.text, hσ] using h

theorem readsAlike_substitution (hσ : inTemplate σ = true) :
    ReadsAlike σ ['$', '\x7b'] (.substitution :: σ) :=
  readsAlike_of_first (p := .sign ['$', '\x7b']) rfl fun _ _ => Piece.first_of_template hσ

/-! ## Words and literals -/

open Lexeme (word digits isPlain_of_isNameChar isNameChar_of_isDigit)

/-- A lexeme that takes up a word, and that only depends on what the word is. -/
theorem scansAlike_word {scan : List Char → Option Nat} (hσ : inTemplate σ = false)
    (hscan : ∀ u u', word u' = word u → scan u' = scan u)
    (hlen : ∀ u n, scan u = some n → n = (word u).length) : ScansAlike σ scan := by
  intro u u' n hu hn
  obtain rfl := hlen u n hn
  obtain ⟨hword, hrest⟩ := hu.alike.takeWhile (fun _ => isPlain_of_isNameChar) hσ
  have hword : word u' = word u := hword
  have htake : ∀ v : List Char, v.take (word v).length = word v := fun v =>
    (List.prefix_iff_eq_take.mp (List.takeWhile_prefix _)).symm
  refine ⟨(hscan u u' hword).trans hn, ?_, hrest⟩
  calc u'.take (word u).length = word u' := by rw [← hword, htake]
    _ = u.take (word u).length := by rw [hword, htake]

theorem scansAlike_keyword (hσ : inTemplate σ = false) (w : String) :
    ScansAlike σ (Lexeme.keyword w) := by
  refine scansAlike_word hσ (fun u u' h => by rw [Lexeme.keyword, Lexeme.keyword, h]) ?_
  intro u n hn
  unfold Lexeme.keyword at hn
  split_ifs at hn with hw
  rw [hw, String.length_toList, ← Option.some.inj hn]

theorem ScansAlike.orElse {scan scan' : List Char → Option Nat} (h : ScansAlike σ scan)
    (h' : ScansAlike σ scan') : ScansAlike σ fun cs => scan cs <|> scan' cs := by
  intro u u' n hu hn
  rcases hscan : scan u with _ | m
  · obtain ⟨hscan', hrest⟩ := h' hu (show scan' u = some n by simpa [hscan] using hn)
    exact ⟨by simp [h.eq_none hu hscan, hscan'], hrest⟩
  · obtain rfl : m = n := by simpa [hscan] using hn
    obtain ⟨hscan', hrest⟩ := h hu hscan
    exact ⟨by simp [hscan'], hrest⟩

theorem name_eq (cs : List Char) : Lexeme.name cs
    = if (word cs).head?.any Lexeme.isNameStart then some (word cs).length else none := by
  cases cs with
  | nil => rfl
  | cons c cs =>
    rw [Lexeme.name]
    by_cases hc : Lexeme.isNameChar c = true
    · rw [word, List.takeWhile_cons_of_pos hc, List.head?_cons, Option.any_some]
    · have hstart : Lexeme.isNameStart c = false := by
        by_contra h
        exact hc (Lexeme.isNameChar_of_isNameStart (by simpa using h))
      rw [word, List.takeWhile_cons_of_neg hc, hstart]
      rfl

theorem scansAlike_name (hσ : inTemplate σ = false) : ScansAlike σ Lexeme.name := by
  refine scansAlike_word hσ (fun u u' h => by rw [name_eq, name_eq, h]) ?_
  intro u n hn
  rw [name_eq] at hn
  split_ifs at hn
  exact (Option.some.inj hn).symm

theorem scansAlike_identifier (hσ : inTemplate σ = false) : ScansAlike σ Lexeme.identifier := by
  refine scansAlike_word hσ
    (fun u u' h => by rw [Lexeme.identifier, Lexeme.identifier, name_eq, name_eq, h]) ?_
  intro u n hn
  unfold Lexeme.identifier at hn
  split_ifs at hn
  rw [name_eq] at hn
  split_ifs at hn
  exact (Option.some.inj hn).symm

theorem Alike.digits_eq (h : Alike σ u u') (hσ : inTemplate σ = false) : digits u' = digits u :=
  (h.takeWhile (fun _ hc => isPlain_of_isNameChar (isNameChar_of_isDigit hc)) hσ).1

theorem isPlain_of_digits {ds : List Char} (h : digits ds = ds) :
    ∀ c ∈ ds, Lexeme.isPlain c = true := fun c hc =>
  isPlain_of_isNameChar (isNameChar_of_isDigit (List.takeWhile_eq_self_iff.mp h c hc))

theorem scansAlike_number (hσ : inTemplate σ = false) : ScansAlike σ Lexeme.number := by
  intro u u' n hu hn
  obtain ⟨ds, rest, rfl, rfl, hne, hds, hrest, hpoint⟩ |
    ⟨ds, fs, rest, rfl, rfl, hne, hds, hfe, hfs, hrest⟩ := Lexeme.number_eq_some hn
  · obtain ⟨t, rfl, ht⟩ := hu.alike.append hσ (isPlain_of_digits hds)
    refine ⟨Lexeme.number_digits hne hds ((ht.digits_eq hσ).trans hrest) ?_, ?_, ?_⟩
    · rintro fs rfl
      obtain ⟨r, rfl, hr⟩ := ht.symm.cons hσ (by decide)
      exact (hr.digits_eq hσ).symm.trans (hpoint r rfl)
    · rw [List.take_left, List.take_left]
    · rwa [List.drop_left, List.drop_left]
  · have hplain : ∀ c ∈ ds ++ '.' :: fs, Lexeme.isPlain c = true := by
      simp only [List.forall_mem_append, List.forall_mem_cons]
      exact ⟨isPlain_of_digits hds, by decide, isPlain_of_digits hfs⟩
    have hassoc : ∀ t : List Char, ds ++ '.' :: (fs ++ t) = (ds ++ '.' :: fs) ++ t := by simp
    have hlen : ds.length + 1 + fs.length = (ds ++ '.' :: fs).length := by
      simp only [List.length_append, List.length_cons]
      omega
    obtain ⟨t, rfl, ht⟩ := Alike.append (hassoc rest ▸ hu.alike) hσ hplain
    rw [hassoc, hlen, List.take_left, List.take_left, List.drop_left, List.drop_left, ← hlen, ← hassoc]
    exact ⟨Lexeme.number_fraction hne hds hfe hfs ((ht.digits_eq hσ).trans hrest), rfl, ht⟩

theorem scansAlike_endOfInput : ScansAlike σ Lexeme.endOfInput := by
  intro u u' n hu hn
  unfold Lexeme.endOfInput at hn
  split_ifs at hn with hu'
  obtain rfl := Option.some.inj hn
  obtain rfl := List.isEmpty_iff.mp hu'
  obtain rfl := hu.alike.eq_nil
  exact ⟨rfl, rfl, .same _ _⟩

theorem scansAlike_string (hσ : inTemplate σ = false) : ScansAlike σ Lexeme.string := by
  intro u u' n hu hn
  obtain ⟨raw, htake, hraw, -⟩ := Lexeme.string_eq_some hn
  have hfirst : Piece.first σ u = some (.string ('"' :: (raw ++ ['"']))) :=
    htake ▸ Piece.first_string hσ hn
  obtain ⟨t, t', rfl, rfl, -, -, hrest⟩ := hu.alike.of_first hfirst rfl
  have hquoted : ∀ v, Lexeme.string (('"' :: (raw ++ ['"'])) ++ v)
      = some ('"' :: (raw ++ ['"'])).length := by
    intro v
    simpa using Lexeme.string_quoted hraw v
  simp only [Piece.text] at hn ⊢
  obtain rfl := Option.some.inj ((hquoted t).symm.trans hn)
  rw [List.take_left, List.take_left, List.drop_left, List.drop_left]
  exact ⟨hquoted t', rfl, hrest⟩

theorem scansAlike_templateChars (hσ : inTemplate σ = true) :
    ScansAlike σ Lexeme.templateChars := by
  intro u u' n hu hn
  obtain ⟨rfl, hpos⟩ := Lexeme.templateChars_eq_some hn
  obtain ⟨k, hk⟩ : ∃ k, k = u.take (Lexeme.templateText u) := ⟨_, rfl⟩
  have hlen : k.length = Lexeme.templateText u := by
    rw [hk, List.length_take, min_eq_left (Lexeme.templateText_le u)]
  have hfirst : Piece.first σ u = some (.quasi k) := by
    rw [Piece.first_of_template hσ, Piece.ofTemplate_of_pos hpos.ne', hk]
  obtain ⟨t, t', rfl, rfl, hfirst', -, hrest⟩ := hu.alike.of_first hfirst rfl
  have htext := Piece.templateText_of_first hσ hfirst'
  simp only [Piece.text] at hpos hlen htext ⊢
  rw [← hlen, List.take_left, List.take_left, List.drop_left, List.drop_left]
  refine ⟨?_, rfl, hrest⟩
  rw [← htext]
  exact Lexeme.templateChars_of_pos (by omega)

end Reading

end Downlevel
