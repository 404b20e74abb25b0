import Mathlib.Data.List.DropRight
import Downlevel.Proofs.Lexeme

/-!
# Pieces of a source text

A source text falls into pieces: spaces, comments, strings, text of templates, and single signs of
code. Which it is depends on what stands open before it, since a comment in the text of a template is
no comment. Replacing a comment by a space leaves all other pieces as they are (`Splits.replace`).
-/

namespace Downlevel

namespace Lexeme

def isLineEnd (c : Char) : Bool :=
  c = '\n' || c = '\r'

/-- How far a comment goes that needs an end, up to behind that end. -/
def commentEnd : List Char → Option Nat
  | '*' :: '/' :: _ => some 2
  | [] => none
  | _ :: cs => (commentEnd cs).map (· + 1)

/-- A comment, either up to the end of the line or between `/*` and `*/`. -/
def comment : List Char → Option Nat
  | '/' :: '/' :: cs => some ((cs.takeWhile fun c => !isLineEnd c).length + 2)
  | '/' :: '*' :: cs => (commentEnd cs).map (· + 2)
  | _ => none

end Lexeme

/-- What stands open at a place of a source text: a block or an object, a template, or a
substitution in one. -/
inductive Bracket where
  | brace
  | template
  | substitution
deriving DecidableEq

/-- Whether a place is in the text of a template, given what stands open there, innermost first. -/
def inTemplate : List Bracket → Bool
  | .template :: _ => true
  | _ => false

inductive Piece where
  | space (c : Char)
  | comment (chars : List Char)
  | string (chars : List Char)
  /-- Text of a template. -/
  | quasi (chars : List Char)
  /-- Anything else. A string without an end is such a piece up to the end of its line. -/
  | sign (chars : List Char)
deriving DecidableEq

namespace Piece

def text : Piece → List Char
  | space c => [c]
  | comment chars | string chars | quasi chars | sign chars => chars

def isSpace : Piece → Bool
  | space _ => true
  | _ => false

def isBlank : Piece → Bool
  | space _ | comment _ => true
  | _ => false

/-- The first piece of a text that starts within a template. -/
def ofTemplate : List Char → Option Piece
  | [] => none
  | '`' :: _ => some (sign ['`'])
  | '$' :: '\x7b' :: _ => some (sign ['$', '\x7b'])
  | c :: cs =>
    if Lexeme.templateText (c :: cs) = 0 then some (sign [c])
    else some (quasi ((c :: cs).take (Lexeme.templateText (c :: cs))))

/-- The first piece of a text of code that starts with no comment. -/
def ofCode : List Char → Option Piece
  | [] => none
  | '"' :: cs =>
    match Lexeme.string ('"' :: cs) with
    | some n => some (string (('"' :: cs).take n))
    | none => some (sign (('"' :: cs).take (Lexeme.stringContents cs + 1)))
  | '*' :: '*' :: _ => some (sign ['*', '*'])
  | c :: _ => if Lexeme.isSpace c then some (space c) else some (sign [c])

/-- The first piece of a text, given what stands open before it. -/
def first (σ : List Bracket) (cs : List Char) : Option Piece :=
  if inTemplate σ then ofTemplate cs
  else match Lexeme.comment cs with
    | some n => some (comment (cs.take n))
    | none => ofCode cs

/-- What stands open behind a piece, given what does before it. -/
def behind (σ : List Bracket) : Piece → List Bracket
  | sign ['`'] => if inTemplate σ then σ.tail else .template :: σ
  | sign ['$', '\x7b'] => .substitution :: σ
  | sign ['\x7b'] => .brace :: σ
  | sign ['\x7d'] => σ.tail
  | _ => σ

end Piece

/-- The pieces of a text, at most `n` of them. -/
def piecesWithin : Nat → List Bracket → List Char → List Piece
  | 0, _, _ => []
  | n + 1, σ, cs =>
    match Piece.first σ cs with
    | none => []
    | some p => p :: piecesWithin n (p.behind σ) (cs.drop p.text.length)

/-- The pieces of a source text. There are no more of them than characters. -/
def pieces (source : List Char) : List Piece :=
  piecesWithin source.length [] source

/-! ## Comments -/

namespace Lexeme

variable {cs : List Char} {n : Nat}

theorem isSpace_of_isLineEnd {c : Char} (h : isLineEnd c = true) : isSpace c = true := by
  simp only [isLineEnd, isSpace, Bool.or_eq_true, decide_eq_true_eq] at h ⊢
  rcases h with h | h <;> simp [h]

theorem blank_cons_of_isSpace {c : Char} (h : isSpace c = true) (cs : List Char) :
    blank (c :: cs) = blank cs + 1 := by
  rw [blank.eq_4, if_pos h] <;> rintro _ rfl <;> simp [isSpace] at h

attribute [local simp] commentEnd

theorem commentEnd_cons (c : Char) (cs : List Char) : commentEnd (c :: cs)
    = if c = '*' ∧ cs.head? = some '/' then some 2 else (commentEnd cs).map (· + 1) := by
  split_ifs with h
  · obtain ⟨rfl, h⟩ := h
    obtain ⟨cs, rfl⟩ := List.head?_eq_some_iff.mp h
    rfl
  · refine commentEnd.eq_3 c cs ?_
    rintro tail rfl rfl
    exact h ⟨rfl, rfl⟩

theorem two_le_commentEnd (h : commentEnd cs = some n) : 2 ≤ n := by
  induction cs generalizing n with
  | nil => simp at h
  | cons c cs ih =>
    rw [commentEnd_cons] at h
    split_ifs at h
    · exact (Option.some.inj h).le
    · obtain ⟨m, hm, rfl⟩ := Option.map_eq_some_iff.mp h
      exact (ih hm).trans (Nat.le_succ m)

theorem commentEnd_le (h : commentEnd cs = some n) : n ≤ cs.length := by
  induction cs generalizing n with
  | nil => simp at h
  | cons c cs ih =>
    rw [commentEnd_cons] at h
    split_ifs at h with hend
    · obtain ⟨cs, rfl⟩ := List.head?_eq_some_iff.mp hend.2
      obtain rfl := Option.some.inj h
      simp
    · obtain ⟨m, hm, rfl⟩ := Option.map_eq_some_iff.mp h
      simpa using ih hm

/-- A comment ends where it does whatever follows it. -/
theorem commentEnd_append {k w : List Char} (h : commentEnd (k ++ w) = some k.length)
    (w' : List Char) : commentEnd (k ++ w') = some k.length := by
  induction k with
  | nil => exact absurd (two_le_commentEnd h) (by simp)
  | cons c k ih =>
    have hk : k ≠ [] := by
      rintro rfl
      exact absurd (two_le_commentEnd h) (by simp)
    have hhead : ∀ v : List Char, (k ++ v).head? = k.head? := fun v =>
      List.head?_append_of_ne_nil k hk
    rw [List.cons_append, commentEnd_cons, hhead] at h ⊢
    split_ifs at h ⊢ with hend
    · exact h
    · rw [ih (by simpa using h)]
      rfl

theorem commentEnd_of_append {k w : List Char} (h : commentEnd (k ++ w) = none) :
    commentEnd w = none := by
  induction k with
  | nil => exact h
  | cons c k ih =>
    rw [List.cons_append, commentEnd_cons] at h
    split_ifs at h
    exact ih (Option.map_eq_none_iff.mp h)

/-- No end of a comment comes about by a space in place of something. -/
theorem commentEnd_replace {u k w : List Char} (h : commentEnd (u ++ (k ++ w)) = none) :
    commentEnd (u ++ ' ' :: w) = none := by
  induction u with
  | nil =>
    have hw : commentEnd w = none := commentEnd_of_append h
    simp [hw]
  | cons c u ih =>
    rw [List.cons_append, commentEnd_cons] at h ⊢
    split_ifs at h with hend
    have hend' : ¬ (c = '*' ∧ (u ++ ' ' :: w).head? = some '/') := by
      cases u with
      | nil => simp
      | cons d u => simpa using hend
    rw [if_neg hend', ih (Option.map_eq_none_iff.mp h)]
    rfl

/-- Behind a comment between `/*` and `*/`, blanks go on. -/
theorem blockComment_eq (cs : List Char) :
    blockComment cs = (commentEnd cs).map fun n => n + blank (cs.drop n) := by
  induction cs with
  | nil => simp [blockComment]
  | cons c cs ih =>
    rw [commentEnd_cons]
    split_ifs with h
    · obtain ⟨rfl, h⟩ := h
      obtain ⟨cs, rfl⟩ := List.head?_eq_some_iff.mp h
      simp [blockComment, Nat.add_comm]
    · rw [blockComment.eq_3, ih]
      · simp [Function.comp_def, Nat.add_right_comm]
      · rintro tail rfl rfl
        exact h ⟨rfl, rfl⟩

theorem lineComment_eq (cs : List Char) :
    lineComment cs = (cs.takeWhile fun c => !isLineEnd c).length
      + blank (cs.drop (cs.takeWhile fun c => !isLineEnd c).length) := by
  induction cs with
  | nil => simp [lineComment, blank]
  | cons c cs ih =>
    rw [lineComment]
    split_ifs with h
    · have hc : isLineEnd c = true := by simpa [isLineEnd] using h
      rw [List.takeWhile_cons_of_neg (by simp [hc]), List.length_nil, List.drop_zero,
        blank_cons_of_isSpace (isSpace_of_isLineEnd hc), Nat.zero_add]
    · have hc : isLineEnd c = false := by simpa [isLineEnd] using h
      rw [List.takeWhile_cons_of_pos (by simp [hc]), List.length_cons, List.drop_succ_cons, ih,
        Nat.add_right_comm]

/-- A comment starts with a slash, and is a prefix of the text. -/
theorem comment_eq_some (h : comment cs = some n) :
    2 ≤ n ∧ n ≤ cs.length ∧ ∃ tail, cs = '/' :: tail := by
  unfold comment at h
  split at h
  · rename_i cs
    obtain rfl := Option.some.inj h
    have : (cs.takeWhile fun c => !isLineEnd c).length ≤ cs.length :=
      (List.takeWhile_prefix _).length_le
    exact ⟨by omega, by simpa using this, _, rfl⟩
  · rename_i cs
    obtain ⟨m, hm, rfl⟩ := Option.map_eq_some_iff.mp h
    have := commentEnd_le hm
    exact ⟨by omega, by simpa using this, _, rfl⟩
  · simp at h

/-- A comment is blank, and so are the blanks behind it. -/
theorem blank_of_comment (h : comment cs = some n) : blank cs = n + blank (cs.drop n) := by
  unfold comment at h
  split at h
  · rename_i cs
    obtain rfl := Option.some.inj h
    rw [blank.eq_1, lineComment_eq]
    simp [Nat.add_right_comm]
  · rename_i cs
    obtain ⟨m, hm, rfl⟩ := Option.map_eq_some_iff.mp h
    rw [blank.eq_2, blockComment_eq, hm]
    simp [Nat.add_right_comm]
  · simp at h

theorem blank_of_not_comment (h : comment cs = none)
    (hs : ∀ c ∈ cs.head?, isSpace c = false) : blank cs = 0 := by
  unfold blank
  split
  · simp [comment] at h
  · rename_i cs
    rw [comment, Option.map_eq_none_iff] at h
    rw [blockComment_eq, h]
    rfl
  · rfl
  · rename_i c cs _ _
    simp [hs c rfl]

theorem comment_of_blank (h : blank cs = 0) : comment cs = none := by
  by_contra hc
  obtain ⟨n, hn⟩ := Option.ne_none_iff_exists'.mp hc
  have := (comment_eq_some hn).1
  have := blank_of_comment hn
  omega

theorem stringContents_drop (cs : List Char) : stringContents (cs.drop (stringContents cs)) = 0 := by
  have hlen : (cs.take (stringContents cs)).length = stringContents cs := by
    simpa only [List.length_take] using min_eq_left (stringContents_le cs)
  have h := stringContents_append ((stringContents_take cs).trans hlen.symm)
    (cs.drop (stringContents cs))
  rw [List.take_append_drop, hlen] at h
  omega

/-- Contents of a string end at a quote, at the end of a line, or before a backslash that ends the
text. -/
theorem eq_of_stringContents (h : stringContents cs = 0) :
    cs = [] ∨ cs = ['\\'] ∨ ∃ c tail, cs = c :: tail ∧ (c = '"' ∨ isLineEnd c = true) := by
  unfold stringContents at h
  split at h
  · simp at h
  · exact .inl rfl
  · rename_i c cs hc
    split_ifs at h with hend
    simp only [Bool.or_eq_true, decide_eq_true_eq] at hend
    rcases hend with ((rfl | rfl) | rfl) | rfl
    · exact .inr (.inr ⟨_, _, rfl, .inl rfl⟩)
    · cases cs with
      | nil => exact .inr (.inl rfl)
      | cons d cs => exact absurd rfl (hc d cs rfl)
    · exact .inr (.inr ⟨_, _, rfl, .inr rfl⟩)
    · exact .inr (.inr ⟨_, _, rfl, .inr rfl⟩)

/-- Text of a template ends at a backquote, at a substitution, or before a backslash that ends the
text. -/
theorem eq_of_templateText (h : templateText cs = 0) :
    cs = [] ∨ cs = ['\\'] ∨ (∃ tail, cs = '`' :: tail) ∨ ∃ tail, cs = '$' :: '\x7b' :: tail := by
  unfold templateText at h
  split at h
  · simp at h
  · exact .inr (.inr (.inr ⟨_, rfl⟩))
  · exact .inl rfl
  · rename_i c cs hc _
    split_ifs at h with hend
    simp only [Bool.or_eq_true, decide_eq_true_eq] at hend
    rcases hend with rfl | rfl
    · exact .inr (.inr (.inl ⟨_, rfl⟩))
    · cases cs with
      | nil => exact .inr (.inl rfl)
      | cons d cs => exact absurd rfl (hc d cs rfl)

end Lexeme

open Lexeme (blank skip commentEnd isLineEnd)

/-! ## The first piece -/

namespace Piece

variable {σ : List Bracket} {p : Piece} {cs : List Char}

theorem ofTemplate_of_pos (h : Lexeme.templateText cs ≠ 0) :
    ofTemplate cs = some (quasi (cs.take (Lexeme.templateText cs))) := by
  unfold ofTemplate
  split
  · simp [Lexeme.templateText] at h
  · simp [Lexeme.templateText] at h
  · simp [Lexeme.templateText] at h
  · rw [if_neg h]

theorem ofCode_cons {c : Char} (hc : c ≠ '"') (hstar : ¬ (c = '*' ∧ cs.head? = some '*')) :
    ofCode (c :: cs)
      = if Lexeme.isSpace c then some (space c) else some (sign [c]) := by
  refine ofCode.eq_4 c cs (fun e => absurd e hc) ?_
  rintro tail rfl rfl
  exact hstar ⟨rfl, rfl⟩

theorem first_of_template (hσ : inTemplate σ = true) : first σ cs = ofTemplate cs := by
  rw [first, if_pos hσ]

theorem first_of_comment (hσ : inTemplate σ = false) {n : Nat} (h : Lexeme.comment cs = some n) :
    first σ cs = some (.comment (cs.take n)) := by
  simp [first, hσ, h]

theorem first_of_code (hσ : inTemplate σ = false) (h : Lexeme.comment cs = none) :
    first σ cs = ofCode cs := by
  simp [first, hσ, h]

theorem ofTemplate_text (h : ofTemplate cs = some p) :
    p.text ≠ [] ∧ p.text <+: cs ∧ p.isBlank = false := by
  unfold ofTemplate at h
  split at h
  · cases h
  · cases h
    simp [text, isBlank]
  · cases h
    simp [text, isBlank]
  · split_ifs at h with hn <;> cases h
    · simp [text, isBlank]
    · exact ⟨by simpa [text] using hn, List.take_prefix _ _, rfl⟩

theorem ofCode_text (h : ofCode cs = some p) :
    p.text ≠ [] ∧ p.text <+: cs ∧ p.isBlank = cs.head?.any Lexeme.isSpace ∧
      (p.isBlank = true → p.isSpace = true ∧ p.text.length = 1) := by
  unfold ofCode at h
  split at h
  · cases h
  · split at h <;> cases h
    · rename_i hn
      obtain ⟨raw, htake, -⟩ := Lexeme.string_eq_some hn
      exact ⟨by rw [text, htake]; simp, List.take_prefix _ _, rfl, nofun⟩
    · exact ⟨by simp [text], List.take_prefix _ _, rfl, nofun⟩
  · cases h
    simp [text, isBlank, Lexeme.isSpace]
  · split_ifs at h with hs <;> cases h <;> simp [text, isBlank, isSpace, hs]

theorem first_text (h : first σ cs = some p) : p.text ≠ [] ∧ p.text <+: cs := by
  unfold first at h
  split_ifs at h with hσ
  · exact ⟨(ofTemplate_text h).1, (ofTemplate_text h).2.1⟩
  · split at h
    · rename_i n hn
      cases h
      obtain ⟨hpos, hle, -⟩ := Lexeme.comment_eq_some hn
      refine ⟨?_, List.take_prefix _ _⟩
      rw [text, ← List.length_pos_iff, List.length_take]
      omega
    · exact ⟨(ofCode_text h).1, (ofCode_text h).2.1⟩

theorem first_eq_none (h : first σ cs = none) : cs = [] := by
  unfold first at h
  split_ifs at h with hσ
  · unfold ofTemplate at h
    split at h
    · rfl
    · cases h
    · cases h
    · split_ifs at h
  · split at h
    · cases h
    · unfold ofCode at h
      split at h
      · rfl
      · split at h <;> cases h
      · cases h
      · split_ifs at h

theorem comment_of_first {k : List Char} (h : first σ cs = some (.comment k)) :
    Lexeme.comment cs = some k.length := by
  unfold first at h
  split_ifs at h with hσ
  · cases (ofTemplate_text h).2.2
  · split at h
    · rename_i n hn
      cases h
      rw [hn, List.length_take, min_eq_left (Lexeme.comment_eq_some hn).2.1]
    · cases ((ofCode_text h).2.2.2 rfl).1

theorem first_space (hσ : inTemplate σ = false) (w : List Char) :
    first σ (' ' :: w) = some (.space ' ') := by
  rw [first_of_code hσ (by simp [Lexeme.comment])]
  rfl

/-- A text is its first piece and what is left. -/
theorem eq_append_of_first (h : first σ cs = some p) :
    cs = p.text ++ cs.drop p.text.length :=
  (List.prefix_iff_eq_append.mp (first_text h).2).symm

theorem behind_of_isBlank (hp : p.isBlank = true) : p.behind σ = σ := by
  cases p with
  | space | comment => rfl
  | _ => cases hp

/-- Behind a blank piece, blanks go on. -/
theorem blank_of_first (h : first σ cs = some p) (hp : p.isBlank = true) :
    inTemplate σ = false ∧ blank cs = p.text.length + blank (cs.drop p.text.length) := by
  unfold first at h
  split_ifs at h with hσ
  · simp [(ofTemplate_text h).2.2] at hp
  · refine ⟨by simpa using hσ, ?_⟩
    split at h
    · rename_i n hn
      cases h
      have hlen : (text (.comment (cs.take n))).length = n := by
        simpa only [text, List.length_take] using min_eq_left (Lexeme.comment_eq_some hn).2.1
      rw [hlen]
      exact Lexeme.blank_of_comment hn
    · obtain ⟨-, -, hs, hone⟩ := ofCode_text h
      cases cs with
      | nil => simp [hp] at hs
      | cons c cs =>
        rw [(hone hp).2, Lexeme.blank_cons_of_isSpace (by simpa [hp] using hs.symm)]
        simp [Nat.add_comm]

/-- Of blank pieces, those with nothing but spaces in them are spaces. -/
theorem all_isSpace_text (h : first σ cs = some p) (hp : p.isBlank = true) :
    p.text.all Lexeme.isSpace = p.isSpace := by
  obtain ⟨t, rfl⟩ := (first_text h).2
  have hσ := (blank_of_first h hp).1
  cases p with
  | space c =>
    have hn : Lexeme.comment (text (space c) ++ t) = none := by
      by_contra hn
      obtain ⟨n, hn⟩ := Option.ne_none_iff_exists'.mp hn
      rw [first_of_comment hσ hn] at h
      cases h
    rw [first_of_code hσ hn] at h
    simpa [isBlank, text, isSpace] using (ofCode_text h).2.2.1
  | comment k =>
    obtain ⟨hlen, -, tail, htail⟩ := Lexeme.comment_eq_some (comment_of_first h)
    cases k with
    | nil => simp at hlen
    | cons c k =>
      obtain rfl : c = '/' := (List.cons.inj htail).1
      simp [text, isSpace, Lexeme.isSpace]
  | _ => cases hp

theorem blank_eq_zero_of_first (hσ : inTemplate σ = false) (h : first σ cs = some p)
    (hp : p.isBlank = false) : blank cs = 0 := by
  rcases hn : Lexeme.comment cs with _ | n
  · rw [first_of_code hσ hn] at h
    have hs := (ofCode_text h).2.2.1
    refine Lexeme.blank_of_not_comment hn fun c hc => ?_
    rw [hp, hc] at hs
    simpa using hs.symm
  · rw [first_of_comment hσ hn] at h
    cases h
    cases hp

end Piece

/-! ## A space for a comment -/

/-- A text with one of its comments replaced by a space. -/
inductive Replaced : List Char → List Char → Prop
  | intro (u : List Char) {k w : List Char} (h : Lexeme.comment (k ++ w) = some k.length) :
    Replaced (u ++ (k ++ w)) (u ++ ' ' :: w)

namespace Replaced

variable {v v' : List Char}

theorem two_le_length (h : Replaced v v') : 2 ≤ v.length := by
  cases h with
  | intro u hk =>
    have := (Lexeme.comment_eq_some hk).1
    simp only [List.length_append]
    omega

/-- A text that does not start with the comment starts as before. -/
theorem cons {c : Char} (hc : c ≠ '/') (h : Replaced (c :: v) v') :
    ∃ t, v' = c :: t ∧ Replaced v t := by
  generalize hv : c :: v = w at h
  cases h with
  | intro u hk =>
    cases u with
    | nil =>
      obtain ⟨-, -, tail, htail⟩ := Lexeme.comment_eq_some hk
      rw [List.nil_append, htail] at hv
      exact absurd (List.cons.inj hv).1 hc
    | cons d u =>
      obtain ⟨rfl, rfl⟩ := List.cons.inj hv
      exact ⟨_, rfl, .intro u hk⟩

theorem head?_eq (h : Replaced v v') {c : Char} (hc : v'.head? = some c) (hs : c ≠ ' ') :
    v.head? = some c := by
  cases h with
  | intro u hk =>
    cases u with
    | nil => exact absurd (by simpa using hc.symm) hs
    | cons d u => simpa using hc

theorem append (h : Replaced v v') (t : List Char) : Replaced (t ++ v) (t ++ v') := by
  cases h with
  | intro u hk =>
    rw [← List.append_assoc, ← List.append_assoc t]
    exact .intro (t ++ u) hk

theorem exists_cons (h : Replaced v v') : ∃ c t, v = c :: t := by
  rcases v with _ | ⟨c, t⟩
  · simpa using h.two_le_length
  · exact ⟨c, t, rfl⟩

/-- A comment before the replaced one ends where it did. -/
theorem comment_eq (h : Replaced v v') {k : List Char}
    (hk : Lexeme.comment (k ++ v) = some k.length) : Lexeme.comment (k ++ v') = some k.length := by
  obtain ⟨hlen, -, tail, htail⟩ := Lexeme.comment_eq_some hk
  rcases k with _ | ⟨a, _ | ⟨d, b⟩⟩
  · simp at hlen
  · simp at hlen
  obtain rfl : a = '/' := (List.cons.inj htail).1
  unfold Lexeme.comment at hk
  simp only [List.cons_append] at hk ⊢
  split at hk
  · rename_i cs heq
    obtain ⟨rfl, rfl⟩ : d = '/' ∧ b ++ v = cs := by simpa using heq
    have hb : (b ++ v).takeWhile (fun c => !isLineEnd c) = b :=
      (List.prefix_of_prefix_length_le (List.takeWhile_prefix _) (List.prefix_append b v)
        (by simpa using (Option.some.inj hk).le)).eq_of_length (by simpa using hk)
    have hall := List.takeWhile_eq_self_iff.mp (hb ▸ List.takeWhile_idem)
    rw [List.takeWhile_append_of_pos hall, List.append_right_eq_self] at hb
    obtain ⟨c, t, rfl⟩ := h.exists_cons
    have hc : isLineEnd c = true := by
      by_contra hc
      simp [hc] at hb
    obtain ⟨t', rfl, -⟩ := h.cons (by rintro rfl; cases hc)
    rw [Lexeme.comment, List.takeWhile_append_of_pos hall, List.takeWhile_cons_of_neg (by simp [hc])]
    simp
  · rename_i cs heq
    obtain ⟨rfl, rfl⟩ : d = '*' ∧ b ++ v = cs := by simpa using heq
    rw [Lexeme.comment, Lexeme.commentEnd_append (w := v) (by simpa using hk)]
    simp
  · cases hk

/-- A slash that starts no comment still starts none. -/
theorem comment_cons_eq_none (h : Replaced v v') {c : Char}
    (hc : Lexeme.comment (c :: v) = none) : Lexeme.comment (c :: v') = none := by
  by_cases hslash : c = '/'
  · subst hslash
    obtain ⟨d, t, rfl⟩ := h.exists_cons
    have hd : d ≠ '/' := by
      rintro rfl
      simp [Lexeme.comment] at hc
    obtain ⟨t', rfl, ht⟩ := h.cons hd
    by_cases hstar : d = '*'
    · subst hstar
      rw [Lexeme.comment, Option.map_eq_none_iff] at hc ⊢
      cases ht
      exact Lexeme.commentEnd_replace hc
    · rw [Lexeme.comment.eq_3 _ (by simpa using hd) (by simpa using hstar)]
  · rw [Lexeme.comment.eq_3 _ (fun _ e => hslash (List.cons.inj e).1)
      (fun _ e => hslash (List.cons.inj e).1)]

/-- A string without an end still has none. -/
theorem string_eq_none (h : Replaced v v') {raw : List Char}
    (hraw : Lexeme.stringContents raw = raw.length) (hv : Lexeme.stringContents v = 0)
    (hquote : v.head? ≠ some '"') :
    Lexeme.string ('"' :: (raw ++ v')) = none ∧
      Lexeme.stringContents (raw ++ v') = raw.length := by
  have hlen := h.two_le_length
  obtain rfl | rfl | ⟨c, t, rfl, rfl | hc⟩ := Lexeme.eq_of_stringContents hv
  · simp at hlen
  · simp at hlen
  · simp at hquote
  · obtain ⟨t', rfl, -⟩ := h.cons (by rintro rfl; cases hc)
    have hcontents : Lexeme.stringContents (raw ++ c :: t') = raw.length := by
      rw [Lexeme.stringContents_append hraw]
      simp only [isLineEnd, Bool.or_eq_true, decide_eq_true_eq] at hc
      rcases hc with rfl | rfl <;> simp [Lexeme.stringContents]
    refine ⟨?_, hcontents⟩
    have hc : c ≠ '"' := by simpa using hquote
    simp only [Lexeme.string, hcontents, List.drop_left]
    split
    · rename_i heq
      exact absurd (List.cons.inj heq).1 hc
    · rfl

/-- Text of a template ends where it did. -/
theorem templateText_eq_zero (h : Replaced v v') (hv : Lexeme.templateText v = 0) :
    Lexeme.templateText v' = 0 ∧ ∀ t, v' ≠ '\x7b' :: t := by
  have hlen := h.two_le_length
  obtain rfl | rfl | ⟨t, rfl⟩ | ⟨t, rfl⟩ := Lexeme.eq_of_templateText hv
  · simp at hlen
  · simp at hlen
  · obtain ⟨t', rfl, -⟩ := h.cons (by decide)
    simp [Lexeme.templateText]
  · obtain ⟨t', rfl, ht⟩ := h.cons (by decide)
    obtain ⟨t'', rfl, -⟩ := ht.cons (by decide)
    simp [Lexeme.templateText]

end Replaced

namespace Piece

variable {σ : List Bracket} {p : Piece} {v v' : List Char}

theorem ofTemplate_replace (h : Replaced v v') (hp : ofTemplate (p.text ++ v) = some p) :
    ofTemplate (p.text ++ v') = some p := by
  generalize hcs : p.text ++ v = cs at hp
  unfold ofTemplate at hp
  split at hp
  · cases hp
  · cases hp
    rfl
  · cases hp
    rfl
  · rename_i c cs hquote hsubst
    split_ifs at hp with hn <;> cases hp
    · -- only a backslash at the end of the text is neither text nor the end of it
      obtain rfl : v = cs := (List.cons.inj hcs).2
      have hlen := h.two_le_length
      obtain he | he | ⟨t, he⟩ | ⟨t, he⟩ := Lexeme.eq_of_templateText hn
      · cases he
      · obtain rfl : v = [] := (List.cons.inj he).2
        simp at hlen
      · exact absurd (List.cons.inj he).1 hquote
      · obtain ⟨rfl, rfl⟩ := List.cons.inj he
        exact absurd rfl (hsubst t rfl)
    · obtain ⟨text, htext⟩ : ∃ text, text = (c :: cs).take (Lexeme.templateText (c :: cs)) :=
        ⟨_, rfl⟩
      have hlen : text.length = Lexeme.templateText (c :: cs) := by
        rw [htext, List.length_take, min_eq_left (Lexeme.templateText_le _)]
      have hv : v = (c :: cs).drop (Lexeme.templateText (c :: cs)) := by
        rw [← hlen, ← hcs, Piece.text, ← htext, List.drop_left]
      obtain ⟨hzero, hbrace⟩ := h.templateText_eq_zero (hv ▸ Lexeme.templateText_drop _)
      have happend : Lexeme.templateText (text ++ v') = text.length :=
        Lexeme.templateText_append (by rw [hlen, htext]; exact Lexeme.templateText_take _)
          hzero hbrace
      rw [Piece.text, ← htext, ofTemplate_of_pos (by rw [happend, hlen]; exact hn), happend,
        List.take_left]

theorem ofCode_replace (h : Replaced v v') (hn : Lexeme.comment (p.text ++ v) = none)
    (hp : ofCode (p.text ++ v) = some p) :
    Lexeme.comment (p.text ++ v') = none ∧ ofCode (p.text ++ v') = some p := by
  generalize hcs : p.text ++ v = cs at hn hp
  unfold ofCode at hp
  split at hp
  · cases hp
  · rename_i cs
    split at hp <;> cases hp
    · rename_i n hstring
      obtain ⟨raw, htake, hraw, -⟩ := Lexeme.string_eq_some hstring
      rw [Piece.text, htake]
      have hstring' : Lexeme.string ('"' :: (raw ++ '"' :: v')) = some (raw.length + 2) :=
        Lexeme.string_quoted hraw v'
      refine ⟨by simp [Lexeme.comment], ?_⟩
      simp [ofCode, hstring', List.take_length_add_append]
    · rename_i hstring
      have hlen : (cs.take (Lexeme.stringContents cs)).length = Lexeme.stringContents cs := by
        rw [List.length_take, min_eq_left (Lexeme.stringContents_le cs)]
      have hv : v = cs.drop (Lexeme.stringContents cs) := by
        rw [Piece.text, List.take_succ_cons, List.cons_append, List.cons_inj_right] at hcs
        exact List.append_cancel_left (hcs.trans (List.take_append_drop _ cs).symm)
      have hquote : v.head? ≠ some '"' := by
        intro hq
        obtain ⟨t, ht⟩ := List.head?_eq_some_iff.mp hq
        simp [Lexeme.string, ← hv, ht] at hstring
      obtain ⟨hnone, hcontents⟩ := h.string_eq_none ((Lexeme.stringContents_take cs).trans hlen.symm)
        (hv ▸ Lexeme.stringContents_drop cs) hquote
      rw [Piece.text, List.take_succ_cons]
      refine ⟨by simp [Lexeme.comment], ?_⟩
      simp only [List.cons_append, ofCode, hnone, hcontents, List.take_succ_cons, List.take_left]
  · cases hp
    exact ⟨by simp [Piece.text, Lexeme.comment], rfl⟩
  · rename_i c cs hquote hstar
    obtain ⟨htext, rfl⟩ : p.text = [c] ∧ v = cs := by
      split_ifs at hp <;> cases hp <;> exact ⟨rfl, (List.cons.inj hcs).2⟩
    rw [htext]
    refine ⟨h.comment_cons_eq_none hn, ?_⟩
    rw [← hp, List.cons_append, List.nil_append, ofCode_cons hquote]
    rintro ⟨rfl, hhead⟩
    obtain ⟨t, rfl⟩ := List.head?_eq_some_iff.mp (h.head?_eq hhead (by decide))
    exact hstar t rfl rfl

/-- The first piece is the same if a comment behind it is replaced. -/
theorem first_replace (h : Replaced v v') (hp : first σ (p.text ++ v) = some p) :
    first σ (p.text ++ v') = some p := by
  rcases hσ : inTemplate σ with _ | _
  · rcases hn : Lexeme.comment (p.text ++ v) with _ | n
    · rw [first_of_code hσ hn] at hp
      obtain ⟨hn', hp'⟩ := ofCode_replace h hn hp
      rw [first_of_code hσ hn', hp']
    · rw [first_of_comment hσ hn] at hp
      have hcomment : .comment ((p.text ++ v).take n) = p := Option.some.inj hp
      have hlen : n = p.text.length := by
        rw [← hcomment, text, List.length_take, min_eq_left (Lexeme.comment_eq_some hn).2.1]
      rw [hlen, List.take_left] at hcomment
      rw [first_of_comment hσ (h.comment_eq (hlen ▸ hn)), List.take_left, hcomment]
  · rw [first_of_template hσ] at hp ⊢
    exact ofTemplate_replace h hp

end Piece

/-! ## All pieces -/

/-- The text that pieces make up. -/
def textOf (ps : List Piece) : List Char :=
  ps.flatMap Piece.text

@[simp] theorem textOf_cons (p : Piece) (ps : List Piece) : textOf (p :: ps) = p.text ++ textOf ps :=
  rfl

theorem textOf_append (ps qs : List Piece) : textOf (ps ++ qs) = textOf ps ++ textOf qs :=
  List.flatMap_append

/-- A text falls into pieces one by one. -/
inductive Splits : List Bracket → List Char → List Piece → Prop
  | nil (σ : List Bracket) : Splits σ [] []
  | cons {σ : List Bracket} {p : Piece} {v : List Char} {ps : List Piece}
    (first : Piece.first σ (p.text ++ v) = some p) (rest : Splits (p.behind σ) v ps) :
    Splits σ (p.text ++ v) (p :: ps)

namespace Splits

variable {σ : List Bracket} {cs : List Char} {ps before after : List Piece}

theorem text_eq (h : Splits σ cs ps) : textOf ps = cs := by
  induction h with
  | nil => rfl
  | cons _ _ ih => rw [textOf_cons, ih]

theorem piecesWithin {n : Nat} (hn : cs.length ≤ n) : Splits σ cs (piecesWithin n σ cs) := by
  induction n generalizing σ cs with
  | zero =>
    obtain rfl := List.length_eq_zero_iff.mp (Nat.le_zero.mp hn)
    exact .nil σ
  | succ n ih =>
    rw [Downlevel.piecesWithin]
    split
    · rename_i h
      obtain rfl := Piece.first_eq_none h
      exact .nil σ
    · rename_i p h
      have hcs := Piece.eq_append_of_first h
      have hpos := List.length_pos_iff.mpr (Piece.first_text h).1
      have hrest : Splits (p.behind σ) (cs.drop p.text.length) _ := ih (by simp only [List.length_drop]; omega)
      have := Splits.cons (hcs ▸ h) hrest
      rwa [← hcs] at this

/-- Replacing a comment by a space leaves the other pieces as they are. -/
theorem replace {k : List Char} (h : Splits σ cs (before ++ .comment k :: after)) :
    Replaced cs (textOf before ++ ' ' :: textOf after) ∧
      Splits σ (textOf before ++ ' ' :: textOf after) (before ++ .space ' ' :: after) := by
  induction before generalizing σ cs with
  | nil =>
    cases h with
    | cons first rest =>
      have hσ := (Piece.blank_of_first first rfl).1
      rw [rest.text_eq]
      exact ⟨.intro [] (Piece.comment_of_first first),
        .cons (p := .space ' ') (Piece.first_space hσ _) rest⟩
  | cons p before ih =>
    cases h with
    | cons first rest =>
      obtain ⟨hreplaced, hsplits⟩ := ih rest
      rw [textOf_cons, List.append_assoc]
      exact ⟨hreplaced.append p.text, .cons (Piece.first_replace hreplaced first) hsplits⟩

end Splits

theorem splits_pieces (source : List Char) : Splits [] source (pieces source) :=
  .piecesWithin (Nat.le_refl _)

end Downlevel
