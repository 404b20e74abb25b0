import Downlevel.Proofs.Lookup
import Downlevel.Proofs.Ranges
import Downlevel.Proofs.Shape

/-!
# The spans of a parsed program

The nodes of a parsed program have the spans of their parts in the source: children lie in their
parent's span one after another, and a leaf's span holds its text (`faithful_spans`). Where a span starts
and ends is told by what stands before it (`Position.In`).
-/

namespace Downlevel

/-! ## Spans -/

/-- The offsets at which a span starts and ends. -/
def Span.range (span : Span) : Range :=
  ⟨span.start.offset, span.stop.offset⟩

/-- The text that stands in a span. -/
def Span.text (source : String) (span : Span) : String :=
  .ofList (span.range.textIn source.toList)

@[simp] theorem LineIndex.range_span (index : LineIndex) (range : Range) :
    (index.span range).range = range := by
  simp [span, Span.range, position]

/-- The text of a node of its own, as it is written in the source. -/
def Kind.WrittenAs {α : Type} (text : String) : Kind α → Prop
  | .identifier name => text = name
  | .number raw => text = raw
  | .string raw => text = "\"" ++ raw ++ "\""
  | .boolean value => text = if value then "true" else "false"
  | .null => text = "null"
  | .this => text = "this"
  | .declarator name _ => ∃ more, text = name ++ more
  | _ => True

theorem Kind.writtenAs_of_spelled {α : Type} {source : String} {span : Span} {k : Kind α}
    (h : k.Spelled source.toList span.range) : k.WrittenAs (span.text source) := by
  have htext {cs : List Char} (hcs : Covers source.toList span.range cs) :
      span.text source = .ofList cs := congrArg _ hcs.textIn_eq
  cases k with
  | identifier | number => exact (htext h).trans String.ofList_toList
  | null | this => exact htext h
  | string raw =>
    refine (htext h).trans (String.toList_injective ?_)
    simp
  | boolean value => exact (htext h).trans String.ofList_toList
  | declarator name =>
    obtain ⟨more, hmore⟩ := h
    refine ⟨.ofList more, (htext hmore).trans ?_⟩
    rw [String.ofList_append, String.ofList_toList]
  | _ => trivial

@[simp] theorem Kind.spelled_map {α β : Type} {source : List Char} {range : Range} (f : α → β) (k : Kind α) :
    (k.map f).Spelled source range ↔ k.Spelled source range := by
  cases k <;> rfl

/-- The span of a node is that of its part of the source. -/
structure Store.FaithfulAt (source : String) (s : Store) (id : NodeId) : Prop where
  start_in : (s.span id).start.In source.toList
  stop_in : (s.span id).stop.In source.toList
  start_le : (s.span id).start.offset ≤ (s.span id).stop.offset
  stop_le : (s.span id).stop.offset ≤ source.utf8ByteSize
  written : (s.kind id).WrittenAs ((s.span id).text source)
  parts : (s.span id).range.Parts ((s.children id).map fun c => (s.span c).range)

namespace Store

open Downlevel.Tree

variable {s : Store}

section Read

variable {source : String} {a : Label} {k : Kind (Tree Label)} {range : Range} {l : Kind RawTree}
  (h : Owns s.nodes (Tree.node a k).cells)
  (hkind : k.map plain = l.map (Tree.map (LineIndex.ofText source.toList).span))
include h hkind

theorem ranges_children : (s.children a.1).map (fun c => (s.span c).range) = l.children.map ann := by
  have hspan : ∀ c ∈ k.children, (s.span c.number).range = c.plain.ann.range := fun c hc => by
    rw [span_eq_of_owns (owns_of_mem_children h hc), plain, ann_map]
  have hchildren := congrArg Kind.children hkind
  rw [Kind.children_map, Kind.children_map] at hchildren
  calc (s.children a.1).map (fun c => (s.span c).range)
      = k.children.map fun c => c.plain.ann.range := by
        rw [children_eq_of_owns h, List.map_map]
        exact List.map_congr_left hspan
    _ = (k.children.map plain).map fun c => c.ann.range := by rw [List.map_map]; rfl
    _ = l.children.map ann := by simp [hchildren, Function.comp_def]

/-- The root of a tree with the spans of faithful ranges. -/
theorem faithfulAt_root (ha : a.2 = (LineIndex.ofText source.toList).span range)
    (hraw : (Tree.node range l).Faithful source.toList) : s.FaithfulAt source a.1 := by
  have hspan : s.span a.1 = (LineIndex.ofText source.toList).span range :=
    (span_eq_of_owns h).trans ha
  obtain rfl : (s.span a.1).range = range := by rw [hspan, LineIndex.range_span]
  obtain ⟨inside, spelled, parts, -⟩ := hraw
  exact
    { start_in := hspan ▸ LineIndex.position_in inside.start
      stop_in := hspan ▸ LineIndex.position_in inside.stop
      start_le := inside.le
      stop_le := byteLength_toList source ▸ inside.stop.le
      written := by
        refine Kind.writtenAs_of_spelled ?_
        rw [show s.kind a.1 = k.map number from kind_eq_of_owns h, Kind.spelled_map]
        rwa [← Kind.spelled_map plain k, hkind, Kind.spelled_map]
      parts := ranges_children h hkind ▸ parts }

end Read

/-- A tree with the spans of faithful ranges. -/
theorem faithfulAt_of_owns {source : String} {t : Tree Label} (h : Owns s.nodes t.cells)
    {raw : RawTree} (hplain : t.plain = raw.map (LineIndex.ofText source.toList).span)
    (hraw : raw.Faithful source.toList) : ∀ c ∈ t.cells, s.FaithfulAt source c.1 := by
  induction t using induction_on generalizing raw with
  | node a k ih =>
    obtain ⟨range, l⟩ := raw
    rw [plain_node, map_node] at hplain
    obtain ⟨ha, hkind⟩ := Tree.node.inj hplain
    rw [cells_node, Multiset.forall_mem_cons]
    refine ⟨faithfulAt_root h hkind ha hraw, fun c hc => ?_⟩
    obtain ⟨-, -, -, below⟩ := hraw
    obtain ⟨d, hd, hc⟩ := mem_forest.mp hc
    have hchildren := congrArg Kind.children hkind
    rw [Kind.children_map, Kind.children_map] at hchildren
    obtain ⟨r, hr, hdr⟩ := List.mem_map.mp (hchildren ▸ List.mem_map_of_mem hd)
    exact ih d hd (owns_of_mem_children h hd) hdr.symm (below r hr) c hc

end Store

theorem exists_faithful_of_parse {source : String} {dialect : Dialect} {s : Store}
    (h : parse source dialect = .ok s) :
    ∃ t, s.Holds t ∧ t.cells.card = s.size ∧ ∀ c ∈ t.cells, s.FaithfulAt source c.1 := by
  obtain ⟨raw, hraw, rfl⟩ := exists_raw_of_parse h
  obtain ⟨t, hholds, hplain, hcard⟩ :=
    Store.exists_holds_ofTree (raw.map (LineIndex.ofText source.toList).span)
  exact ⟨t, hholds, hcard, Store.faithfulAt_of_owns hholds.2 hplain (parseRaw_faithful hraw)⟩

/-- Every node of a parsed program has the span of its part of the source. -/
theorem faithful_spans {source : String} {dialect : Dialect} {s : Store}
    (h : parse source dialect = .ok s) : ∀ id < s.size, s.FaithfulAt source id := by
  obtain ⟨t, hholds, hcard, hfaithful⟩ := exists_faithful_of_parse h
  intro id hid
  have hreachable : id ∈ s.reachable :=
    (hholds.reachable_perm hcard).mem_iff.mpr (List.mem_range.mpr hid)
  obtain ⟨c, hc, rfl⟩ := hholds.mem_reachable_iff.mp hreachable
  exact hfaithful c hc

theorem faithful_spans_everyConstruct :
    ∃ s, parse everyConstruct .next = .ok s ∧ s.root < s.size ∧ s.FaithfulAt everyConstruct s.root := by
  obtain ⟨s, hs⟩ := parse_everyConstruct
  obtain ⟨t, ⟨hroot, howns⟩, -⟩ := exists_holds_of_parse hs
  obtain ⟨c, hc, hnumber⟩ := Multiset.mem_map.mp t.number_mem_cells
  have hlt : s.root < s.size := hroot ▸ hnumber ▸ howns.lt_size hc
  exact ⟨s, hs, hlt, faithful_spans hs s.root hlt⟩

end Downlevel
