import Downlevel.Proofs.Conversion

/-!
# Converting what has been converted

Converting the output of a conversion gives the same text again, and no warnings (`convert_convert`).
The directive is split off where it was before, since no printed program starts with a `#` or a line
end. What is read of the rest has none of the constructs, so every pass leaves it as it is, and its text
depends on its shape only.
-/

namespace Downlevel

open Downlevel.Tree Construct

namespace Tree

/-- The text of a program depends on its shape only, up to braces that are printed anyway. -/
theorem text_print_of_shape {t u : Tree Span} (h : t.shape = u.braced.shape)
    (hp : u.kind.category = .program) : t.print.text = u.print.text := by
  rw [text_print_congr h]
  obtain ⟨a, k⟩ := u
  cases k with
  | program body =>
    have hbraced : (node a (.program body)).braced = node a (.program (body.map braced)) :=
      braced_node a _
    rw [hbraced, text_print_program, text_print_program, List.flatMap_map]
    simp only [layout_braced]
  | _ => cases hp

/-- No statement starts with a `#` or, if it starts with no blank, with a line end. -/
theorem exists_cons_of_statement {cs rest : List Char} {P : Built → Prop}
    (h : Phrase.statement.Meets cs rest P) : ∃ c tail, cs = c :: tail ∧ c ≠ '#' ∧ c ≠ '\n' := by
  have hstart : Phrase.statement.starts (Rule.opens 15) cs = true := Phrase.Yields.starts 15 h.reads rfl
  cases cs with
  | nil => cases hstart
  | cons c tail =>
    refine ⟨c, tail, rfl, ?_, ?_⟩
    · rintro rfl
      cases hstart
    · rintro rfl
      have hlength : (Lexeme.skip tail).length = tail.length + 1 :=
        congrArg List.length ((Lexeme.skip_newline tail).symm.trans h.skip)
      rw [Lexeme.skip, List.length_drop] at hlength
      omega

/-- Nor does a printed program. -/
theorem Formed.head?_print {t : Tree Span} (h : t.Formed) (hp : t.kind.category = .program) :
    t.print.text.head? ≠ some '#' ∧ t.print.text.head? ≠ some '\n' := by
  obtain ⟨a, k⟩ := t
  cases k with
  | program body =>
    rw [text_print_program]
    cases body with
    | nil => simp
    | cons s ss =>
      obtain ⟨here, below⟩ := formed_node.mp h
      have hs : s.Formed := below s List.mem_cons_self
      have hformed : s.braced.shape.Formed := formed_shape.mpr hs.braced
      have hbraced : s.braced.shape.Braced := by
        rw [shape, ← braced_map]
        exact braced_braced _
      have hstatement : s.braced.shape.kind.isStatement = true := by
        rw [Kind.isStatement, shape, kind_map, Kind.category_map, (alike_braced s).category]
        exact all_map_kind.mp here s List.mem_cons_self
      have hend : Lexeme.word (Lexeme.skip []) ≠ "else".toList := by decide
      obtain ⟨c, tail, htext, hhash, hline⟩ := exists_cons_of_statement
        ((hformed.rereads hbraced).1.meetsStatement hstatement 0 hend)
      rw [List.append_nil, shape, layout_map, layout_braced] at htext
      rw [List.flatMap_cons, htext]
      simp [hhash, hline]
  | _ => cases hp

end Tree

/-- A program without any of the constructs is left as it is, and nothing is reported. -/
theorem lowered_of_features {t : Tree Span} (h : t.features = []) (cs : List Construct) :
    lowered cs t = ⟨String.ofList t.print.text, []⟩ := by
  have hlower : lowerAll cs t = t := by
    induction cs with
    | nil => rfl
    | cons c cs ih =>
      rw [lowerAll, List.foldl_cons, (lacks_of_features h c).rebuild_eq]
      exact ih
  have hhoisted : t.hoisted [] = [] := by
    conv_lhs => rw [← (lacks_of_features h .blockScope).rebuild_eq]
    exact hoisted_rebuild_scopeStep t []
  rw [lowered, hlower, hhoisted, ite_self]

/-- The text of a program without any of the constructs, under a directive, is converted to itself. -/
theorem result_convert_printed {t : Tree Span} (h : t.Formed) (hp : t.kind.category = .program)
    (hfeatures : t.features = []) (source : List Char) {code : List Char}
    (hcode : code = Directive.reattach (Directive.strip source).directive t.print.text) :
    (convert (String.ofList code)).result = .ok ⟨String.ofList code, []⟩ := by
  obtain ⟨hhash, hline⟩ := h.head?_print hp
  obtain ⟨directive, hstrip, hreattach⟩ := Directive.strip_reattach source hhash hline
  obtain ⟨s, hs, hshape⟩ := h.parse_print hp hfeatures .next
  rw [← hcode] at hstrip hreattach
  have hread : Module.ofSource (String.ofList (Directive.strip (String.ofList code).toList).body)
      = .ok (.ofTree (String.ofList t.print.text) s) := by
    rw [String.toList_ofList, hstrip]
    exact Module.ofSource_of_parse hs
  have hnone : s.toTree.features = [] :=
    (features_eq_nil_of_shape hshape).mpr (features_braced hfeatures)
  rw [result_convert_catalog hread, String.toList_ofList, hstrip]
  change Except.ok ((lowered all s.toTree).under _) = _
  rw [lowered_of_features hnone, text_print_of_shape hshape hp, Rendered.under,
    String.toList_ofList, hreattach]
  rfl

/-- Converting what has been converted changes nothing, and reports nothing. -/
theorem convert_convert {source : String} {r : Rendered} (h : (convert source).result = .ok r) :
    (convert r.code).result = .ok ⟨r.code, []⟩ := by
  obtain ⟨m, hm, rfl⟩ := exists_module_of_convert h
  obtain ⟨-, t, hholds, hformed, hprogram⟩ := Module.exists_holds_of_ofSource hm
  rw [hholds.toTree]
  refine result_convert_printed (formed_lowerAll hformed all)
    ((category_lowerAll all t.plain).trans hprogram)
    (features_lowerAll hformed hprogram mem_all (by decide)) source.toList ?_
  rw [lowered, String.toList_ofList]

theorem convert_convert_script :
    ∃ r, (convert script).result = .ok r ∧ (convert r.code).result = .ok ⟨r.code, []⟩ := by
  obtain ⟨s, hs⟩ := parse_script
  have hr := result_convert_catalog (Module.ofSource_of_parse hs)
  exact ⟨_, hr, convert_convert hr⟩

end Downlevel
