import Downlevel.Proofs.Features
import Downlevel.Proofs.Idle

/-!
# Passes that have nothing left to do

A pass leaves a tree in which its construct is gone, but for the rest parameters of arrow functions:
there is nothing left for it to do at any node (`Construct.settled_rebuild`). Where that is so, its hooks
rest (`Construct.rests_of_settled`), and so a second run of the pass changes nothing, neither the tree
nor what has been reported. A program of the stable dialect is in that state for every pass from the
start.
-/

namespace Downlevel

namespace Construct

variable {α β γ σ : Type}

open Downlevel.Tree

/-! ## Nodes that a lowering leaves as they are -/

/-- Whether the lowering of a construct has nothing to do at a node, which is given with the kinds of
its children. The rest parameter of an arrow function stays. -/
def settled : Construct → Kind (Kind α) → Bool
  | restParam, .arrowFunction .. => true
  | c, k => c.absent k

theorem settled_of_absent {c : Construct} {k : Kind (Kind α)} (h : c.absent k = true) :
    c.settled k = true := by
  unfold settled
  split
  · rfl
  · exact h

theorem settled_of_ne {c : Construct} (hc : c ≠ restParam) :
    (c.settled : Kind (Kind α) → Bool) = c.absent := by
  cases c <;> first | rfl | exact absurd rfl hc

theorem absent_of_settled {c : Construct} {k : Kind γ} {u : γ → Kind α} (h : c.settled (k.map u) = true)
    (hk : ∀ params body, k ≠ .arrowFunction params body) : c.absent (k.map u) = true := by
  unfold settled at h
  split at h
  · rename_i hmap
    cases k <;> first | exact absurd rfl (hk _ _) | cases hmap
  · exact h

theorem settled_serves (c : Construct) {k : Kind γ} {u : γ → Kind α} {v : γ → Kind β}
    (h : ∀ d ∈ k.children, (u d).Serves (v d)) (hk : c.settled (k.map u) = true) :
    c.settled (k.map v) = true := by
  by_cases hc : c = restParam
  · subst hc
    cases k with
    | arrowFunction => rfl
    | _ => exact absent_serves restParam h hk
  · rw [settled_of_ne hc] at hk ⊢
    exact absent_serves c h hk

theorem lenient_settled (c : Construct) :
    Lenient fun k : Kind (Kind (Tree σ)) => c.settled k = true :=
  fun k hk => settled_of_absent (lenient_absent c k hk)

section Step

variable {a : σ} {k : Kind (Tree σ)}

theorem settled_restStep (bound : Bool) (hk : (node a k).Shaped)
    (below : ∀ d ∈ k.children, Each (fun k => restParam.settled k = true) d) :
    Each (fun k => restParam.settled k = true) (node a (restStep a bound k)) := by
  by_cases harrow : ∃ params body, k = .arrowFunction params body
  · obtain ⟨params, body, rfl⟩ := harrow
    exact each_node.mpr ⟨rfl, below⟩
  · have hne : ∀ params body, k ≠ .arrowFunction params body := fun params body h => harrow ⟨_, _, h⟩
    cases hs : k.signature? with
    | none =>
      rw [restStep_of_none hs]
      refine each_node.mpr ⟨settled_of_absent ?_, below⟩
      rw [absent, Kind.signature?_map, hs]
      rfl
    | some signature =>
      obtain ⟨params, body⟩ := signature
      obtain ⟨hparams, hbody⟩ := each_of_signature hs below
      have hformed := (Bool.and_eq_true_iff.mp (shaped_signature hk hs).1.2).1
      rw [restStep_of_signature hne hs]
      refine each_withSignature hs (settled_of_absent (absent_withSignature hs (by simp) (by simp) ?_))
        (fun p hp => hparams p (withoutRest_subset params hp))
        (each_prepend (lenient_settled _) (each_restDeclaration (lenient_settled _) params) hbody)
      exact fun _ => isRest_of_mem_withoutRest hformed

theorem settled_step (c : Construct) (bound : Bool) (hk : (node a k).Shaped)
    (below : ∀ d ∈ k.children, Each (fun k => c.settled k = true) d) :
    Each (fun k => c.settled k = true) (node a (c.step a bound k)) := by
  by_cases hc : c = restParam
  · subst hc
    exact settled_restStep bound hk below
  · have hformed : FormedParams k := fun params body hs =>
      (Bool.and_eq_true_iff.mp (shaped_signature hk hs).1.2).1
    rw [settled_of_ne hc] at below ⊢
    exact lacks_step c bound below (.inr ⟨rfl, hformed, fun h => absurd h hc⟩)

/-- A lowering leaves nothing for itself to do. -/
theorem settled_rebuild (c : Construct) {t : Tree σ} (h : t.Shaped) :
    Each (fun k => c.settled k = true) (rebuild c.step t) := by
  induction t using induction_on with
  | node a k ih =>
    obtain ⟨here, below⟩ := shaped_node.mp h
    rw [rebuild_node]
    refine settled_step c _
      (c.each_map_rebuild Kind.shaped_serves here fun d hd => c.shaped_rebuild (below d hd)) ?_
    rw [Kind.children_map, List.forall_mem_map]
    exact fun d hd => ih d hd (below d hd)

end Step

/-! ## Hooks that rest -/

section Rests

variable {s : Store} {id : NodeId}

open Lowering

theorem replace_kind (s : Store) (id : NodeId) : s.replace id (s.kind id) = s := by
  have hmodify : s.nodes.modify id ({ · with kind := s.kind id }) = s.nodes := by
    refine Array.ext (Array.size_modify ..) fun i _ hi => ?_
    rw [Array.getElem_modify]
    split
    · rename_i h
      subst h
      simp [Store.kind, Store.node, hi]
    · rfl
  rw [Store.replace, hmodify]

/-- An action that first looks at the store. -/
theorem run_get_bind {α : Type} (f : Store → StateM Store α) (s : Store) :
    (get >>= f : StateM Store α).run s = (f s).run s := rfl

/-- Nothing is taken off parameters without defaults. -/
theorem takeDefaults_of_hasDefault {params : List NodeId}
    (h : ∀ p ∈ params, (s.kind p).hasDefault = false) : (takeDefaults params).run s = ([], s) := by
  induction params with
  | nil => rfl
  | cons p params ih =>
    rw [List.forall_mem_cons] at h
    rw [takeDefaults, run_get_bind]
    split
    · rename_i hp
      rw [hp] at h
      cases h.1
    · exact ih h.2

theorem restName?_of_isRest {k : Kind NodeId} (h : k.isRest = false) : restName? k = none := by
  cases k with
  | param name fallback rest =>
    cases rest with
    | false => rfl
    | true => cases h
  | _ => rfl

/-- Where nothing is left to do, the hooks of a pass rest. -/
theorem rests_of_settled (c : Construct) (h : c.settled ((s.kind id).map s.kind) = true) :
    c.plugin.Rests s id := by
  cases c with
  | arrowFunction =>
    have hleave (bound : List NodeId) : ((lowerArrow bound id).run s).2 = s := by
      rw [lowerArrow, run_get_bind]
      split
      · rename_i hk
        rw [hk] at h
        cases h
      · rfl
    constructor
    · rintro m cx rfl
      simp only [plugin, arrows]
      split <;> exact ⟨_, rfl⟩
    · intro m bound hm
      exact Hook.rests_edit (f := fun id s => ((lowerArrow bound id).run s).2) (hleave bound) m bound hm
  | conciseMethod =>
    refine ⟨Hook.rests_edit ?_, Hook.rests_pass⟩
    unfold lowerConcise
    split
    · rename_i key value shorthand method hk
      rw [hk] at h
      obtain rfl : method = false := by simpa [settled, absent, Kind.map] using h
      rw [← hk, replace_kind]
    · rfl
  | defaultParam =>
    refine ⟨Hook.rests_edit ?_, Hook.rests_pass⟩
    rw [lowerDefaults, run_get_bind]
    split
    · rfl
    · rename_i params body hs
      have hparams : ∀ p ∈ params, (s.kind p).hasDefault = false := by
        simpa [settled, absent, Kind.signature?_map, hs] using h
      rw [StateT.run_bind, takeDefaults_of_hasDefault hparams]
      rfl
  | restParam =>
    refine ⟨Hook.rests_edit ?_, Hook.rests_pass⟩
    rw [lowerRest, run_get_bind]
    split
    · rfl
    · rename_i hne
      split
      · rfl
      · rename_i params body hs
        have hparams : ∀ p ∈ params, (s.kind p).isRest = false := by
          have habsent := absent_of_settled h hne
          simpa [absent, Kind.signature?_map, hs] using habsent
        split
        · rfl
        · rename_i last hlast
          rw [restName?_of_isRest (hparams last (List.mem_of_getLast? hlast))]
          rfl
  | shorthandProperty =>
    refine ⟨Hook.rests_edit ?_, Hook.rests_pass⟩
    unfold lowerShorthand
    split
    · rename_i key value shorthand method hk
      rw [hk] at h
      obtain rfl : shorthand = false := by simpa [settled, absent, Kind.map] using h
      rw [← hk, replace_kind]
    · rfl
  | templateLiteral =>
    refine ⟨Hook.rests_pass, Hook.rests_edit ?_⟩
    rw [lowerTemplate, run_get_bind]
    split
    · rename_i hk
      rw [hk] at h
      cases h
    · rfl
  | powerOperator =>
    refine ⟨Hook.rests_pass, Hook.rests_edit ?_⟩
    rw [lowerPower, run_get_bind]
    split
    · rename_i hk
      rw [hk] at h
      cases h
    · rfl
  | blockScope =>
    refine ⟨?_, Hook.rests_pass⟩
    rintro m cx rfl
    simp only [plugin, Lowering.blockScope]
    split
    · exact ⟨cx, rfl⟩
    · rename_i keyword declarators hvar hk
      rw [hk] at h
      obtain rfl : keyword = .var := by simpa [settled, absent, Kind.map] using h
      exact (hvar rfl).elim
    · exact ⟨cx, rfl⟩

end Rests

/-! ## Stored trees -/

section Stored

variable {c : Construct} {s : Store} {t : Tree Label}

theorem settled_iff_of_holds (h : s.Holds t) :
    t.plain.Each (fun k => c.settled k = true) ↔
      ∀ id ∈ s.reachable, c.settled ((s.kind id).map s.kind) = true := by
  rw [Store.each_plain_iff_of_serves (P := fun k => c.settled k = true) c.settled_serves h.2,
    h.forall_reachable (P := fun k => c.settled (k.map s.kind) = true)]

/-- A pass that has nothing left to do does nothing. -/
theorem run_of_settled {m : Module} (h : m.tree.Holds t)
    (hsettled : t.plain.Each fun k => c.settled k = true) :
    ∃ walked m', c.plugin.run m = (.ok walked, m') ∧ m'.toDraft = m.toDraft := by
  have hends := Store.ends_of_owns h.2 h.height_le
  rw [h.1] at hends
  refine Plugin.run_of_rests (by cases c <;> rfl) (by cases c <;> intros <;> rfl) hends ?_ fun id hid => ?_
  · rw [Plugin.depthLimit]
    omega
  · exact c.rests_of_settled ((settled_iff_of_holds h).mp hsettled id hid)

end Stored

/-- Whether a node is an instance of a construct, as far as it can be told from the node alone. -/
def marks : Construct → Kind α → Bool
  | arrowFunction, .arrowFunction .. => true
  | conciseMethod, .property _ _ _ method => method
  | defaultParam, k => k.hasDefault
  | restParam, k => k.isRest
  | shorthandProperty, .property _ _ shorthand _ => shorthand
  | templateLiteral, .template .. => true
  | powerOperator, .binary .power .. => true
  | blockScope, .declaration keyword _ => keyword ≠ .var
  | _, _ => false

theorem marks_of_settled {c : Construct} {k : Kind γ} {u : γ → Kind α} (hk : k.category ≠ .param)
    (h : c.settled (k.map u) = true) : c.marks k = false := by
  cases c with
  | defaultParam => exact Kind.hasDefault_eq_false hk
  | restParam => exact Kind.isRest_eq_false hk
  | arrowFunction | templateLiteral => cases k <;> first | rfl | cases h
  | conciseMethod =>
    cases k with
    | property key value shorthand method => cases method <;> first | rfl | cases h
    | _ => rfl
  | shorthandProperty =>
    cases k with
    | property key value shorthand method => cases shorthand <;> first | rfl | cases h
    | _ => rfl
  | powerOperator =>
    cases k with
    | binary op => cases op <;> first | rfl | cases h
    | _ => rfl
  | blockScope =>
    cases k with
    | declaration keyword => cases keyword <;> first | rfl | cases h
    | _ => rfl

theorem marks_param {c : Construct} {k : Kind α} (hk : k.category = .param) (h : c.marks k = true) :
    c = .defaultParam ∧ k.hasDefault = true ∨ c = .restParam ∧ k.isRest = true := by
  cases k with
  | param name fallback rest =>
    cases c <;> first | exact .inl ⟨rfl, h⟩ | exact .inr ⟨rfl, h⟩ | cases h
  | _ => cases hk

end Construct

namespace Store

open Downlevel.Tree

/-- The function has this node among its parameters. -/
def TakesParam (s : Store) (function id : NodeId) : Prop :=
  ∃ params body, (s.kind function).signature? = some (params, body) ∧ id ∈ params

/-- The node uses a construct. A parameter does if it is one of a function that the root leads to, which
is no arrow function in the case of a rest parameter. -/
def Uses (s : Store) (c : Construct) (id : NodeId) : Prop :=
  c.marks (s.kind id) = true ∧
    ((s.kind id).category = .param → ∃ function ∈ s.reachable, s.TakesParam function id ∧
      (c = .restParam → ∀ params body, s.kind function ≠ .arrowFunction params body))

theorem not_uses_of_settled {s : Store} {c : Construct}
    (h : ∀ id ∈ s.reachable, c.settled ((s.kind id).map s.kind) = true) :
    ∀ id ∈ s.reachable, ¬ s.Uses c id := by
  rintro id hid ⟨hmarks, hparam⟩
  by_cases hk : (s.kind id).category = .param
  · obtain ⟨function, hfunction, ⟨params, body, hs, hmem⟩, harrow⟩ := hparam hk
    have hsettled := h function hfunction
    rcases Construct.marks_param hk hmarks with ⟨rfl, hdefault⟩ | ⟨rfl, hrest⟩
    · have hparams : ∀ p ∈ params, (s.kind p).hasDefault = false := by
        simpa [Construct.settled, Construct.absent, Kind.signature?_map, hs] using hsettled
      rw [hparams id hmem] at hdefault
      cases hdefault
    · have hparams : ∀ p ∈ params, (s.kind p).isRest = false := by
        have habsent := Construct.absent_of_settled hsettled (harrow rfl)
        simpa [Construct.absent, Kind.signature?_map, hs] using habsent
      rw [hparams id hmem] at hrest
      cases hrest
  · rw [Construct.marks_of_settled hk (h id hid)] at hmarks
    cases hmarks

/-- In a well-formed tree, every parameter but the root is one of a function. -/
theorem takesParam_of_owns {s : Store} {t : Tree Label} (h : Owns s.nodes t.cells) (ht : t.Formed) :
    ∀ c ∈ t.cells, (s.kind c.1).category = .param →
      c.1 = t.number ∨ ∃ d ∈ t.cells, s.TakesParam d.1 c.1 := by
  induction t using induction_on with
  | node a k ih =>
    intro c hc hparam
    rw [cells_node] at hc ⊢
    rcases Multiset.mem_cons.mp hc with rfl | hc
    · exact .inl rfl
    · obtain ⟨d, hd, hc⟩ := mem_forest.mp hc
      have howns := owns_of_mem_children h hd
      refine .inr ?_
      rcases ih d hd howns ((formed_node.mp ht).2 d hd) c hc hparam with hroot | ⟨e, he, htakes⟩
      · rw [hroot, kind_eq_of_owns howns, Kind.category_map] at hparam
        obtain ⟨params, body, hs, hmem⟩ := ht.mem_params hd hparam
        refine ⟨cell a k, Multiset.mem_cons_self _ _, params.map number, body.number, ?_, ?_⟩
        · rw [show s.kind (cell a k).1 = k.map number from kind_eq_of_owns h, Kind.signature?_map, hs]
          rfl
        · rw [hroot]
          exact List.mem_map_of_mem hmem
      · exact ⟨e, Multiset.mem_cons_of_mem (mem_forest.mpr ⟨d, hd, he⟩), htakes⟩

/-- In a stored program, all parameters are those of functions. -/
theorem Holds.exists_takesParam {s : Store} {t : Tree Label} (h : s.Holds t) (ht : t.plain.Formed)
    (hprogram : t.plain.kind.category = .program) :
    ∀ id ∈ s.reachable, (s.kind id).category = .param →
      ∃ function ∈ s.reachable, s.TakesParam function id := by
  intro id hid hparam
  obtain ⟨c, hc, rfl⟩ := h.mem_reachable_iff.mp hid
  rcases takesParam_of_owns h.2 (formed_map.mp ht) c hc hparam with hroot | ⟨d, hd, htakes⟩
  · rw [hroot, kind_eq_of_owns h.2, Kind.category_map] at hparam
    rw [plain, kind_map, Kind.category_map, hparam] at hprogram
    cases hprogram
  · exact ⟨d.1, h.mem_reachable_iff.mpr ⟨d, hd, rfl⟩, htakes⟩

end Store

open Construct

/-- A pass of the catalog makes its construct go, brings in none, and has nothing left to do after
that: running it again changes neither the tree nor what has been reported. On a program of the stable
dialect, no pass changes anything. -/
theorem passes_settle :
    (∀ m : Module, m.tree.Shaped → ∀ p ∈ lowerings, ∃ c : Construct, p = c.plugin ∧
      ∃ walked m', p.run m = (.ok walked, m') ∧
        (∀ id ∈ m'.tree.reachable, ¬ m'.tree.Uses c id) ∧
        (m.tree.WellFormed → ∀ id ∈ m'.tree.reachable, (m'.tree.kind id).category = .param →
          ∃ function ∈ m'.tree.reachable, m'.tree.TakesParam function id) ∧
        (∀ f : Feature, (∀ id ∈ m.tree.reachable, (m.tree.kind id).feature? ≠ some f) →
          ∀ id ∈ m'.tree.reachable, (m'.tree.kind id).feature? ≠ some f) ∧
        ∃ walked' m'', p.run m' = (.ok walked', m'') ∧ m''.tree = m'.tree ∧
          m''.diagnostics = m'.diagnostics) ∧
    ∀ source s, parse source .stable = .ok s → ∀ m : Module, m.tree = s → ∀ p ∈ lowerings,
      ∃ walked m', p.run m = (.ok walked, m') ∧ m'.tree = m.tree ∧ m'.diagnostics = m.diagnostics := by
  refine ⟨fun m h p hp => ?_, ?_⟩
  · obtain ⟨c, -, rfl⟩ := List.mem_map.mp (show p ∈ all.map plugin from hp)
    obtain ⟨t, hholds, hshaped⟩ := h.exists_holds
    obtain ⟨walked, m', t', hrun, hholds', hplain, -⟩ := c.lowers m t hholds
    have hsettled : t'.plain.Each fun k => c.settled k = true := hplain ▸ settled_rebuild c hshaped
    obtain ⟨walked', m'', hrun', hdraft⟩ := run_of_settled hholds' hsettled
    refine ⟨c, rfl, walked, m', hrun, ?_, fun hformed => ?_, fun f hf id hid hfid => ?_, walked', m'', hrun',
      congrArg Draft.tree hdraft, congrArg Draft.diagnostics hdraft⟩
    · exact Store.not_uses_of_settled ((settled_iff_of_holds hholds').mp hsettled)
    · obtain ⟨htree, hprogram⟩ := hformed.toTree
      rw [hholds.toTree] at htree hprogram
      refine hholds'.exists_takesParam (hplain ▸ c.formed_rebuild htree) ?_
      rw [hplain, (c.serves_rebuild t.plain).category, hprogram]
    · have hhas : t'.plain.Has f := hholds'.has_iff.mpr ⟨id, hid, hfid⟩
      rw [hplain] at hhas
      obtain ⟨id, hid, hfid⟩ := hholds.has_iff.mp (hshaped.has_of_rebuild c hhas)
      exact hf id hid hfid
  · rintro source _ hs m rfl p hp
    obtain ⟨c, -, rfl⟩ := List.mem_map.mp (show p ∈ all.map plugin from hp)
    obtain ⟨t, hholds, hfeatures⟩ := features_of_parse_stable hs
    have hsettled : t.plain.Each fun k => c.settled k = true :=
      (Tree.lacks_of_features hfeatures c).mono fun _ => settled_of_absent
    obtain ⟨walked, m', hrun, hdraft⟩ := run_of_settled hholds hsettled
    exact ⟨walked, m', hrun, congrArg Draft.tree hdraft, congrArg Draft.diagnostics hdraft⟩

/-- A program of the stable dialect. -/
def plainProgram : String :=
  "var f = function (a, b) \x7b return a + \"!\"; \x7d;\n"

theorem passes_settle_everyConstruct :
    (∃ s, parse everyConstruct .next = .ok s ∧ s.Shaped ∧
      ∀ p ∈ lowerings, ∃ c : Construct, p = c.plugin ∧
        ∃ walked m', p.run (.ofTree everyConstruct s) = (.ok walked, m') ∧
          (∀ id ∈ m'.tree.reachable, ¬ m'.tree.Uses c id) ∧
          ∃ walked' m'', p.run m' = (.ok walked', m'') ∧ m''.tree = m'.tree ∧
            m''.diagnostics = m'.diagnostics) ∧
    ∃ s, parse plainProgram .stable = .ok s ∧
      ∀ p ∈ lowerings, ∃ walked m', p.run (.ofTree plainProgram s) = (.ok walked, m') ∧ m'.tree = s := by
  constructor
  · obtain ⟨s, hs⟩ := parse_everyConstruct
    obtain ⟨t, hholds, hformed, -⟩ := exists_holds_of_parse hs
    have hshaped : s.Shaped := hholds.shaped hformed.shaped
    refine ⟨s, hs, hshaped, fun p hp => ?_⟩
    obtain ⟨c, hc, walked, m', hrun, huses, -, -, hagain⟩ :=
      passes_settle.1 (.ofTree everyConstruct s) hshaped p hp
    exact ⟨c, hc, walked, m', hrun, huses, hagain⟩
  · have hread : (parse plainProgram .stable).isOk = true := by decide +kernel
    cases hs : parse plainProgram .stable with
    | error e =>
      rw [hs] at hread
      cases hread
    | ok s =>
      refine ⟨s, rfl, fun p hp => ?_⟩
      obtain ⟨walked, m', hrun, htree, -⟩ :=
        passes_settle.2 plainProgram s hs (.ofTree plainProgram s) rfl p hp
      exact ⟨walked, m', hrun, htree⟩

end Downlevel
