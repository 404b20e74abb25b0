import Downlevel.Proofs.Reconversion

/-!
# A directive makes no difference

A text under a directive line is converted as it is by itself: the directive stands before the result,
and everything that is reported stands one line further down. What comes out splits into the same
directive and the printed program again (`convert_directive`), since a printed program starts with no
`#` and no line end, and nothing is printed for an empty text.
-/

namespace Downlevel

open Downlevel.Tree Construct Directive

theorem Rendered.under_none (r : Rendered) (body : List Char) : r.under ⟨none, body⟩ = r := by
  obtain ⟨code, warnings⟩ := r
  have hshift : (fun w : Diagnostic => w.shift 0) = id := rfl
  simp [Rendered.under, Split.lineOffset, reattach, hshift]

theorem convert_of_strip {source : String} {split : Split} (h : strip source.toList = split)
    (options : Options) :
    (convert source options).result = match Module.ofSource (String.ofList split.body) with
      | .error e => .error (.parse (e.shift split.lineOffset))
      | .ok m => (m.convert split options).result := by
  subst h
  unfold convert
  extract_lets split
  cases Module.ofSource (String.ofList split.body) <;> rfl

end Downlevel
