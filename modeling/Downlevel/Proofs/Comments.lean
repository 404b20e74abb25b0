import Mathlib.Data.List.DropRight
import Downlevel.Proofs.Blanks

/-!
# Comments

Replacing a comment by a space does not change how a program is read (`parse_replace_comment`), unless
the comment is the only one between a multiplication sign and what follows it. The comment is then
taken for part of the sign, and the program is rejected (`parse_comment_behind_star`).
-/

namespace Downlevel

/-- Whether a comment that stands between these pieces is the only one between a multiplication sign
and what follows it. -/
def behindStar (before after : List Piece) : Bool :=
  (before.rdropWhile Piece.isSpace).getLast? = some (.sign ['*']) && spacesOnly after

theorem spacesOnly_append (ps qs : List Piece) :
    spacesOnly (ps ++ qs) = if ps.all Piece.isSpace then spacesOnly qs else spacesOnly ps := by
  induction ps with
  | nil => rfl
  | cons p ps ih =>
    rw [List.cons_append, spacesOnly_cons, spacesOnly_cons, List.all_cons, ih]
    cases p.isSpace <;> simp

theorem rdropWhile_star {front back : List Piece} (h : back.all Piece.isSpace = true) :
    (front ++ .sign ['*'] :: back).rdropWhile Piece.isSpace = front ++ [.sign ['*']] := by
  have hback : ∀ p ∈ back.reverse, p.isSpace = true := by simpa using h
  rw [List.rdropWhile, List.reverse_append, List.reverse_cons, List.append_assoc,
    List.dropWhile_append_of_pos hback]
  simp [Piece.isSpace]

/-- A comment and a space are the same to a multiplication sign before them, unless the comment is the
only one behind it. -/
theorem spacesOnly_comment {before after front back : List Piece} {k : List Char}
    (hstar : behindStar before after = false) (h : before = front ++ .sign ['*'] :: back) :
    spacesOnly (back ++ .comment k :: after) = spacesOnly (back ++ .space ' ' :: after) := by
  rw [spacesOnly_append, spacesOnly_append]
  split
  · rename_i hback
    have hlast : (before.rdropWhile Piece.isSpace).getLast? = some (.sign ['*']) := by
      rw [h, rdropWhile_star hback, List.getLast?_concat]
    rw [behindStar, hlast, decide_eq_true rfl, Bool.true_and] at hstar
    rw [spacesOnly_cons, spacesOnly_cons, hstar]
    rfl
  · rfl

/-- Replacing a comment by a space leaves a program that is read as the same tree but for places, or
is rejected as well. -/
theorem parse_replace_comment {source : String} {before after : List Piece} {k : List Char}
    (h : pieces source.toList = before ++ .comment k :: after)
    (hstar : behindStar before after = false) :
    source.toList = textOf before ++ (k ++ textOf after) ∧
      (parse (String.ofList (textOf before ++ ' ' :: textOf after)) .next).toOption.map
          (·.toTree.shape)
        = (parse source .next).toOption.map (·.toTree.shape) := by
  have hsplits := splits_pieces source.toList
  rw [h] at hsplits
  have halike : Alike [] source.toList (textOf before ++ ' ' :: textOf after) :=
    Splits.alike rfl rfl hsplits hsplits.replace.2 fun _ _ => spacesOnly_comment hstar
  refine ⟨?_, ?_⟩
  · rw [← hsplits.text_eq, textOf_append, textOf_cons]
    rfl
  · rw [parse_toOption, parse_toOption, String.toList_ofList, parseRaw_alike halike]

/-- A comment in a substitution, in a template that has what looks like a comment in its text. -/
theorem parse_replace_comment_substitution :
    ∃ before after,
      pieces "`//$\x7ba /* c */ * b\x7d`;".toList = before ++ .comment "/* c */".toList :: after ∧
      behindStar before after = false ∧
      (parse "`//$\x7ba /* c */ * b\x7d`;" .next).toOption.isSome = true ∧
      "`//$\x7ba /* c */ * b\x7d`;".toList
        = textOf before ++ ("/* c */".toList ++ textOf after) ∧
      (parse (String.ofList (textOf before ++ ' ' :: textOf after)) .next).toOption.map
          (·.toTree.shape)
        = (parse "`//$\x7ba /* c */ * b\x7d`;" .next).toOption.map (·.toTree.shape) := by
  have hpieces : pieces "`//$\x7ba /* c */ * b\x7d`;".toList
      = [.sign ['`'], .quasi ['/', '/'], .sign ['$', '\x7b'], .sign ['a'], .space ' ']
        ++ .comment "/* c */".toList :: [.space ' ', .sign ['*'], .space ' ', .sign ['b'],
          .sign ['\x7d'], .sign ['`'], .sign [';']] := by decide
  have hstar : behindStar [.sign ['`'], .quasi ['/', '/'], .sign ['$', '\x7b'], .sign ['a'],
      .space ' '] [.space ' ', .sign ['*'], .space ' ', .sign ['b'], .sign ['\x7d'], .sign ['`'],
        .sign [';']] = false := by decide
  exact ⟨_, _, hpieces, hstar, by decide +kernel, parse_replace_comment hpieces hstar⟩

/-- A comment alone behind a multiplication sign makes a program that is rejected. -/
theorem parse_comment_behind_star :
    ∃ before after,
      pieces "a * /* c */ b;".toList = before ++ .comment "/* c */".toList :: after ∧
      String.ofList (textOf before ++ ' ' :: textOf after) = "a *   b;" ∧
      (parse "a * /* c */ b;" .next).toOption.isSome = false ∧
      (parse "a *   b;" .next).toOption.isSome = true :=
  ⟨[.sign ['a'], .space ' ', .sign ['*'], .space ' '], [.space ' ', .sign ['b'], .sign [';']],
    by decide, by decide, by decide +kernel, by decide +kernel⟩

end Downlevel
