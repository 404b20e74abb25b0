import Downlevel.Proofs.Reachable
import Downlevel.Proofs.Reread

/-!
# Parsing undoes rendering

A store is well-formed if the nodes its root leads to form a tree, each of them once, and each node
is one that may stand where it does. Such a store is printed without a warning, and reading the text
gives the same tree again, but for node numbers, places, and the braces that printing puts around
the first branch of a conditional with two (`Store.parse_render`).
-/

namespace Downlevel

namespace Tree

variable {σ τ : Type}

theorem brace_map (f : σ → τ) (k : Kind (Tree σ)) :
    brace (k.map (map f)) = (brace k).map (map f) := by
  cases k with
  | ifStatement test consequent alternate =>
    cases alternate with
    | none => rfl
    | some alternate =>
      have hmap : (Kind.ifStatement test consequent (some alternate)).map (map f)
          = .ifStatement (test.map f) (consequent.map f) (some (alternate.map f)) := rfl
      rw [hmap]
      simp only [brace, kind_map, Kind.isBlock_map]
      split
      · rfl
      · have hblock : (node consequent.ann (.block [consequent])).map f
            = node (consequent.map f).ann (.block [consequent.map f]) := by
          cases consequent
          simp [map_node, Kind.map]
        exact congrArg (Kind.ifStatement (test.map f) · (some (alternate.map f))) hblock.symm
  | _ => rfl

theorem braced_map (f : σ → τ) (t : Tree σ) : (t.map f).braced = t.braced.map f := by
  induction t using induction_on with
  | node a k ih =>
    rw [map_node, braced_node, braced_node, map_node, ← brace_map, Kind.map_map, Kind.map_map]
    exact congrArg (fun l => node (f a) (brace l)) (Kind.map_congr ih)

theorem statements_map (f : σ → τ) (t : Tree σ) : (t.map f).statements = t.statements.map (map f) := by
  obtain ⟨a, k⟩ := t
  rw [map_node]
  cases k with
  | program body => rfl
  | _ => exact congrArg (fun u => [u]) (map_node f a _).symm

/-- The text of a tree depends on its shape only. -/
theorem text_print_congr {t u : Tree Span} (h : t.shape = u.shape) : t.print.text = u.print.text := by
  have htext (t : Tree Span) : t.print.text
      = t.shape.statements.flatMap fun s => s.layout.text .statement 0 ++ ['\n'] := by
    rw [text_print, shape, statements_map, List.flatMap_map]
    simp only [layout_map]
  rw [htext, htext, h]

theorem formed_shape {t : Tree σ} : t.shape.Formed ↔ t.Formed :=
  formed_map

/-- Reading the text of a well-formed program gives its tree again. -/
theorem parseRaw_print {t : Tree Span} (h : t.Formed) (hp : t.kind.category = .program) :
    ∃ raw, parseRaw t.print.text = .ok raw ∧ raw.shape = t.braced.shape := by
  obtain ⟨a, k⟩ := t
  cases k with
  | program body =>
    have hshape : (node a (.program body)).braced.shape
        = node () (.program (body.map fun s => s.braced.shape)) := by
      simp [brace, Kind.map, Function.comp_def]
    have hformed := formed_shape.mpr h.braced
    have hbraced : (node a (.program body)).braced.shape.Braced := by
      rw [shape, ← braced_map]
      exact braced_braced _
    rw [hshape] at hformed hbraced ⊢
    have htext : (body.map fun s => s.braced.shape).flatMap
        (fun s => s.layout.text .statement 0 ++ ['\n']) = (node a (.program body)).print.text := by
      simp [text_print_program, shape, layout_map, List.flatMap_map]
    have hyields := yields_program hformed hbraced
    rw [htext] at hyields
    obtain ⟨v, c, heval, raw, rfl, hraw⟩ := hyields 0
    refine ⟨raw, ?_, hraw⟩
    have hmatched := matchProgram_matched (node a (.program body)).print.text
    rw [heval] at hmatched
    unfold parseRaw
    generalize matchProgram _ = reply at hmatched ⊢
    obtain ⟨matched, tracker⟩ := reply
    subst hmatched
    rfl
  | _ => cases hp

theorem warnings_print {t : Tree Span} (h : t.Formed) (hp : t.kind.category = .program) :
    t.print.warnings = [] := by
  obtain ⟨a, k⟩ := t
  cases k with
  | program body => exact warnings_print_program h
  | _ => cases hp

end Tree

theorem checkDialect_next (raw : RawTree) : checkDialect .next raw = .ok raw := by
  unfold checkDialect
  split
  · contradiction
  · rfl

/-- What is read is stored as it is. -/
theorem parse_of_parseRaw {source : String} {dialect : Dialect} {raw : RawTree}
    (h : (parseRaw source.toList >>= checkDialect dialect) = .ok raw) :
    ∃ s, parse source dialect = .ok s ∧ s.toTree.shape = raw.shape := by
  have htree : parseTree source dialect
      = .ok (raw.map (LineIndex.ofText source.toList).span) := by
    unfold parseTree
    extract_lets chars index
    rw [show (parseRaw chars >>= checkDialect dialect) = .ok raw from h]
  refine ⟨.ofTree (raw.map (LineIndex.ofText source.toList).span), ?_, ?_⟩
  · rw [parse, htree]
    rfl
  · obtain ⟨u, hu, hplain, -⟩ :=
      Store.exists_holds_ofTree (raw.map (LineIndex.ofText source.toList).span)
    rw [hu.toTree, hplain, Tree.shape_map]

namespace Store

open Downlevel.Tree

/-- The nodes that the root leads to form a tree, which is a program, and every one of them may
stand where it does. A store with a cycle would have a way down longer than itself. -/
structure WellFormed (s : Store) : Prop where
  distinct : (s.preorder (s.size + 1) s.root).Nodup
  inside : ∀ id ∈ s.preorder (s.size + 1) s.root, id < s.size
  program : (s.kind s.root).category = .program
  formed : ∀ id ∈ s.preorder (s.size + 1) s.root, ((s.kind id).map s.kind).formed = true

instance (s : Store) : Decidable s.WellFormed :=
  decidable_of_iff
    ((s.preorder (s.size + 1) s.root).Nodup ∧
      (∀ id ∈ s.preorder (s.size + 1) s.root, id < s.size) ∧
      (s.kind s.root).category = .program ∧
      ∀ id ∈ s.preorder (s.size + 1) s.root, ((s.kind id).map s.kind).formed = true)
    ⟨fun h => ⟨h.1, h.2.1, h.2.2.1, h.2.2.2⟩, fun h => ⟨h.1, h.2, h.3, h.4⟩⟩

theorem WellFormed.toTree {s : Store} (h : s.WellFormed) :
    s.toTree.Formed ∧ s.toTree.kind.category = .program := by
  obtain ⟨t, ht, hcells⟩ := exists_holds_of_nodup h.distinct h.inside
  rw [ht.toTree]
  refine ⟨(formed_iff_of_owns ht.2).mpr fun c hc => ?_, ?_⟩
  · rw [hcells] at hc
    obtain ⟨id, hid, rfl⟩ := List.mem_map.mp (Multiset.mem_coe.mp hc)
    exact h.formed id hid
  · have hroot := h.program
    rw [← ht.1, kind_eq_of_owns ht.2, Kind.category_map] at hroot
    rwa [plain, kind_map, Kind.category_map]

/-- Reading what is printed of a well-formed store gives the same tree, but for numbers, places and
the braces that printing adds. -/
theorem parse_render {s : Store} (h : s.WellFormed) :
    s.render.warnings = [] ∧
      ∃ s', parse s.render.code .next = .ok s' ∧ s'.toTree.shape = s.toTree.braced.shape := by
  obtain ⟨hformed, hprogram⟩ := h.toTree
  refine ⟨warnings_print hformed hprogram, ?_⟩
  obtain ⟨raw, hraw, hshape⟩ := parseRaw_print hformed hprogram
  have hcode : s.render.code.toList = s.toTree.print.text := String.toList_ofList
  have hread : (parseRaw s.render.code.toList >>= checkDialect .next) = .ok raw := by
    rw [hcode, hraw]
    exact checkDialect_next raw
  obtain ⟨s', hs', htree⟩ := parse_of_parseRaw hread
  exact ⟨s', hs', htree.trans hshape⟩

/-- `if (a) b; else ;`, with its first branch out of braces. -/
def bareConditional : Store where
  nodes := #[⟨.program [1], {}⟩, ⟨.ifStatement 2 3 (some 5), {}⟩, ⟨.identifier "a", {}⟩,
    ⟨.expressionStatement 4, {}⟩, ⟨.identifier "b", {}⟩, ⟨.empty, {}⟩]
  root := 0

theorem parse_render_bareConditional :
    bareConditional.WellFormed ∧ bareConditional.render.warnings = [] ∧
      ∃ s', parse bareConditional.render.code .next = .ok s' ∧
        s'.toTree.shape = bareConditional.toTree.braced.shape :=
  ⟨by decide, parse_render (by decide)⟩

end Store

end Downlevel
