import Downlevel.Proofs.Features
import Downlevel.Proofs.Spans

/-!
# Where the stable dialect rejects a program

The nodes of a parsed program come in pre-order, and their spans nest and follow one another. So of two
nodes the earlier leads down to the later one or ends before it starts (`Store.pairwise_preorder`). The
first node that uses a construct of the next dialect is then the first in the text as well, and there the
stable dialect rejects the program (`parse_stable`).
-/

namespace Downlevel

namespace Store

variable {s : Store} {source : String}

/-- Of the nodes that use a construct of the next dialect, the one that starts first, and the outermost
of those that start there. -/
structure FirstOffender (s : Store) (id : NodeId) (f : Feature) : Prop where
  reachable : id ∈ s.reachable
  feature : (s.kind id).feature? = some f
  first : ∀ other ∈ s.reachable, (s.kind other).feature? ≠ none → other ≠ id →
    (s.span id).start.offset < (s.span other).start.offset ∨
      (s.span id).start.offset = (s.span other).start.offset ∧ s.Leads id other

/-! ## The order of nodes in the text -/

theorem mem_preorder_succ {depth : Nat} {id i : NodeId} :
    i ∈ s.preorder (depth + 1) id ↔ i = id ∨ ∃ c ∈ s.children id, i ∈ s.preorder depth c := by
  rw [preorder, List.mem_cons, List.mem_flatMap]

theorem leads_of_mem_preorder {depth : Nat} {id c i : NodeId} (hc : c ∈ s.children id)
    (hi : i ∈ s.preorder depth c) : s.Leads id i := by
  induction depth generalizing id c with
  | zero => cases hi
  | succ depth ih =>
    rcases mem_preorder_succ.mp hi with rfl | ⟨d, hd, hi⟩
    · exact .single hc
    · exact .head hc (ih hd hi)

/-- The nodes below a node lie in its span. -/
theorem span_within {depth : Nat} {id : NodeId} (h : ∀ i ∈ s.preorder depth id, s.FaithfulAt source i) :
    ∀ i ∈ s.preorder depth id, (s.span id).start.offset ≤ (s.span i).start.offset ∧
      (s.span i).stop.offset ≤ (s.span id).stop.offset := by
  induction depth generalizing id with
  | zero => exact nofun
  | succ depth ih =>
    intro i hi
    rcases mem_preorder_succ.mp hi with rfl | ⟨c, hc, hi⟩
    · exact ⟨le_rfl, le_rfl⟩
    · have hc' := (h id List.mem_cons_self).parts.within _ (List.mem_map_of_mem hc)
      have hi' := ih (fun j hj => h j (mem_preorder_succ.mpr (.inr ⟨c, hc, hj⟩))) i hi
      exact ⟨hc'.1.trans hi'.1, hi'.2.trans hc'.2⟩

/-- Of two nodes in pre-order, the earlier leads to the later one or ends before it. -/
theorem pairwise_preorder {depth : Nat} {id : NodeId}
    (h : ∀ i ∈ s.preorder depth id, s.FaithfulAt source i) :
    (s.preorder depth id).Pairwise fun i j =>
      s.Leads i j ∧ (s.span i).start.offset ≤ (s.span j).start.offset ∨
        (s.span i).stop.offset ≤ (s.span j).start.offset := by
  induction depth generalizing id with
  | zero => exact .nil
  | succ depth ih =>
    have hbelow {c : NodeId} (hc : c ∈ s.children id) :
        ∀ i ∈ s.preorder depth c, s.FaithfulAt source i :=
      fun i hi => h i (mem_preorder_succ.mpr (.inr ⟨c, hc, hi⟩))
    have hordered := List.pairwise_map.mp (h id List.mem_cons_self).parts.ordered
    refine .cons (fun i hi => ?_) (List.pairwise_flatMap.mpr ⟨fun c hc => ih (hbelow hc), ?_⟩)
    · have hstart := (span_within h i (List.mem_cons_of_mem id hi)).1
      obtain ⟨c, hc, hi⟩ := List.mem_flatMap.mp hi
      exact .inl ⟨leads_of_mem_preorder hc hi, hstart⟩
    · refine hordered.imp_of_mem fun {c d} hc hd hcd i hi j hj => .inr ?_
      exact (span_within (hbelow hc) i hi).2.trans (hcd.trans (span_within (hbelow hd) j hj).1)

/-- Only the root may have an empty span. -/
theorem eq_or_start_lt_stop {depth : Nat} {id : NodeId}
    (h : ∀ i ∈ s.preorder depth id, s.FaithfulAt source i) :
    ∀ i ∈ s.preorder depth id, i = id ∨ (s.span i).start.offset < (s.span i).stop.offset := by
  induction depth generalizing id with
  | zero => exact nofun
  | succ depth ih =>
    intro i hi
    rcases mem_preorder_succ.mp hi with rfl | ⟨c, hc, hi⟩
    · exact .inl rfl
    · refine .inr ?_
      rcases ih (fun j hj => h j (mem_preorder_succ.mpr (.inr ⟨c, hc, hj⟩))) i hi with rfl | hlt
      · exact (h id List.mem_cons_self).parts.nonempty _ (List.mem_map_of_mem hc)
      · exact hlt

/-- The first node that uses a construct is the first one in the text. -/
theorem exists_firstOffender (h : ∀ i ∈ s.reachable, s.FaithfulAt source i)
    (hroot : (s.kind s.root).feature? = none) {span : Span} {f : Feature} {more : List (Span × Feature)}
    (hfeatures : s.reachable.filterMap s.featureAt? = (span, f) :: more) :
    ∃ id, s.FirstOffender id f ∧ s.span id = span := by
  obtain ⟨before, id, after, hsplit, hbefore, hid, -⟩ := List.filterMap_eq_cons_iff.mp hfeatures
  obtain ⟨g, hg, hpair⟩ := Option.map_eq_some_iff.mp hid
  obtain ⟨rfl, rfl⟩ := Prod.mk.inj hpair
  have hreachable : id ∈ s.reachable := by simp [hsplit]
  have hlt : (s.span id).start.offset < (s.span id).stop.offset := by
    refine (eq_or_start_lt_stop h id hreachable).resolve_left ?_
    rintro rfl
    rw [hroot] at hg
    cases hg
  refine ⟨id, ⟨hreachable, hg, fun other hother hfeature hne => ?_⟩, rfl⟩
  have hafter : other ∈ after := by
    rw [hsplit, List.mem_append, List.mem_cons] at hother
    rcases hother with hother | hother | hother
    · exact absurd (Option.map_eq_none_iff.mp (hbefore other hother)) hfeature
    · exact absurd hother hne
    · exact hother
  have hpairwise := pairwise_preorder h
  rw [← reachable, hsplit] at hpairwise
  have hthen := (List.pairwise_cons.mp (List.pairwise_append.mp hpairwise).2.1).1 other hafter
  rcases hthen with ⟨hleads, hle⟩ | hle
  · rcases hle.lt_or_eq with hless | heq
    · exact .inl hless
    · exact .inr ⟨heq, hleads⟩
  · exact .inl (hlt.trans_le hle)

end Store

/-! ## What is read in either dialect -/

section Read

variable {source : String} {s : Store}

theorem parse_of_raw_error {cause : ParseError.Cause} {offset : Nat}
    (h : parseRaw source.toList = .error (cause, offset)) (dialect : Dialect) :
    parse source dialect = .error (.ofPosition cause ((LineIndex.ofText source.toList).position offset)) := by
  unfold parse parseTree
  dsimp only
  rw [h]
  rfl

/-- A text that does not match the grammar is rejected alike in both dialects. -/
theorem parse_stable_of_next_error {e : ParseError} (h : parse source .next = .error e) :
    parse source .stable = .error e := by
  cases hraw : parseRaw source.toList with
  | error fault => rw [← h, parse_of_raw_error hraw, parse_of_raw_error hraw]
  | ok raw =>
    rw [parse_next_of_raw hraw] at h
    cases h

theorem parse_next_of_stable (h : parse source .stable = .ok s) : parse source .next = .ok s := by
  obtain ⟨raw, hraw, rfl⟩ := exists_raw_of_parse h
  exact parse_next_of_raw hraw

/-- A program is read as in the next dialect or rejected at the first node that uses a construct. -/
theorem parse_stable_of_next (h : parse source .next = .ok s) :
    s.reachable.filterMap s.featureAt? = [] ∧ parse source .stable = .ok s ∨
    ∃ span f more, s.reachable.filterMap s.featureAt? = (span, f) :: more ∧
      parse source .stable = .error (.ofPosition (.unsupported f) span.start) := by
  obtain ⟨raw, hraw, rfl⟩ := exists_raw_of_parse h
  obtain ⟨t, hholds, hplain, -⟩ :=
    Store.exists_holds_ofTree (raw.map (LineIndex.ofText source.toList).span)
  rw [← hholds.features_eq, hplain, Tree.features_map]
  cases hfeatures : raw.features with
  | nil => exact .inl ⟨rfl, parse_stable_of_features hraw hfeatures⟩
  | cons first more => exact .inr ⟨_, _, _, rfl, parse_stable_of_feature hraw hfeatures⟩

theorem faithfulAt_of_parse {dialect : Dialect} (h : parse source dialect = .ok s) :
    ∀ id ∈ s.reachable, s.FaithfulAt source id := by
  obtain ⟨t, hholds, -, hfaithful⟩ := exists_faithful_of_parse h
  intro id hid
  obtain ⟨c, hc, rfl⟩ := hholds.mem_reachable_iff.mp hid
  exact hfaithful c hc

/-- A program is no construct of its own. -/
theorem feature?_root_of_parse {dialect : Dialect} (h : parse source dialect = .ok s) :
    (s.kind s.root).feature? = none := by
  obtain ⟨t, ⟨hroot, howns⟩, -, hprogram, -⟩ := exists_holds_of_parse h
  rw [Tree.plain, Tree.kind_map, Kind.category_map] at hprogram
  rw [← hroot, Store.kind_eq_of_owns howns, Kind.feature?_map]
  cases hk : t.kind <;> rw [hk] at hprogram <;> first | rfl | cases hprogram

end Read

/-- The stable dialect is the next one without the constructs that only the latter has. It rejects a
program that uses one where the first of them starts. -/
theorem parse_stable (source : String) :
    (∀ s, parse source .stable = .ok s ↔
      parse source .next = .ok s ∧ ∀ id ∈ s.reachable, (s.kind id).feature? = none) ∧
    (∀ e, parse source .next = .error e → parse source .stable = .error e) ∧
    (∀ s, parse source .next = .ok s → (∃ id ∈ s.reachable, (s.kind id).feature? ≠ none) →
      ∃ id f, s.FirstOffender id f ∧ (s.span id).start.In source.toList ∧
        parse source .stable
          = .error ⟨.unsupported f, (s.span id).start.line, (s.span id).start.column + 1⟩) := by
  have hnil {s : Store} : s.reachable.filterMap s.featureAt? = [] ↔
      ∀ id ∈ s.reachable, (s.kind id).feature? = none := by
    simp [List.filterMap_eq_nil_iff, Store.featureAt?]
  refine ⟨fun s => ⟨fun h => ?_, ?_⟩, fun e => parse_stable_of_next_error, ?_⟩
  · have hnext := parse_next_of_stable h
    rcases parse_stable_of_next hnext with ⟨hnone, -⟩ | ⟨span, f, more, -, herror⟩
    · exact ⟨hnext, hnil.mp hnone⟩
    · rw [h] at herror
      cases herror
  · rintro ⟨h, hnone⟩
    rcases parse_stable_of_next h with ⟨-, hok⟩ | ⟨span, f, more, hfeatures, -⟩
    · exact hok
    · rw [hnil.mpr hnone] at hfeatures
      cases hfeatures
  · rintro s h ⟨id, hid, hfeature⟩
    rcases parse_stable_of_next h with ⟨hnone, -⟩ | ⟨span, f, more, hfeatures, herror⟩
    · exact absurd (hnil.mp hnone id hid) hfeature
    · obtain ⟨first, hfirst, rfl⟩ :=
        Store.exists_firstOffender (faithfulAt_of_parse h) (feature?_root_of_parse h) hfeatures
      exact ⟨first, f, hfirst, (faithfulAt_of_parse h first hfirst.reachable).start_in, herror⟩

/-- A power and, at the same place, a template. -/
def powerOfTemplate : String :=
  "var x =\n  `a` ** 2;"

theorem parse_stable_powerOfTemplate :
    ∃ s id, parse powerOfTemplate .next = .ok s ∧ s.FirstOffender id .powerOperator ∧
      parse powerOfTemplate .stable = .error ⟨.unsupported .powerOperator, 2, 3⟩ := by
  have hstable : parse powerOfTemplate .stable = .error ⟨.unsupported .powerOperator, 2, 3⟩ := by
    decide +kernel
  obtain ⟨hok, -, hfirst⟩ := parse_stable powerOfTemplate
  cases hnext : parse powerOfTemplate .next with
  | error e =>
    have hread : (parse powerOfTemplate .next).isOk = true := by decide +kernel
    rw [hnext] at hread
    cases hread
  | ok s =>
    have hsome : ∃ id ∈ s.reachable, (s.kind id).feature? ≠ none := by
      by_contra! hnone
      have hsame := (hok s).mpr ⟨hnext, hnone⟩
      rw [hstable] at hsame
      cases hsame
    obtain ⟨id, f, hoffender, -, hat⟩ := hfirst s hnext hsome
    rw [hstable] at hat
    obtain ⟨hcause, -, -⟩ := ParseError.mk.inj (Except.error.inj hat)
    obtain rfl := ParseError.Cause.unsupported.inj hcause
    exact ⟨s, id, rfl, hoffender, hstable⟩

end Downlevel
