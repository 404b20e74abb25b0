import Downlevel.Proofs.Reachable
import Downlevel.Proofs.Walk

/-!
# Walks that go all the way

Hooks that always ask to go on and keep an invariant of the draft, one that fixes the tree, let a walk
come to its end, and the invariant holds from one end of it to the other. What the walk enters in the
parent index is then read off the tree: each node that it passes, as the parent of each of its children
(`Plugin.completes_visit`). A tree without cycles is no deeper than it has nodes (`Store.Rooted.ends`), so
a walk may go deep enough.
-/

namespace Downlevel

/-! ## Trees without cycles -/

namespace Store

open Relation

variable {s : Store} {a b id : NodeId} {levels : Nat}

/-- One node is another, or leads to it. -/
def Reaches (s : Store) : NodeId → NodeId → Prop :=
  ReflTransGen fun id c => c ∈ s.children id

/-- All nodes from the root on are stored, and none of them leads to itself. A node may have several
parents. -/
structure Rooted (s : Store) : Prop where
  stored : ∀ id, s.Reaches s.root id → id < s.size
  acyclic : ∀ id, s.Reaches s.root id → ¬ s.Leads id id

/-- Where the levels end too early there is a way down through more nodes. -/
theorem ends_or_exists_way (levels : Nat) (id : NodeId) :
    s.Ends levels id ∨ ∃ way : List NodeId, way.length = levels + 1 ∧
      way.Pairwise s.Leads ∧ ∀ i ∈ way, s.Reaches id i := by
  induction levels generalizing id with
  | zero => exact .inr ⟨[id], rfl, List.pairwise_singleton _ _, List.forall_mem_singleton.mpr .refl⟩
  | succ levels ih =>
    by_cases hall : ∀ c ∈ s.children id, s.Ends levels c
    · exact .inl hall
    · obtain ⟨c, hc, hends⟩ : ∃ c ∈ s.children id, ¬ s.Ends levels c := by simpa using hall
      obtain ⟨way, hlength, hway, hreaches⟩ := (ih c).resolve_left hends
      refine .inr ⟨id :: way, by rw [List.length_cons, hlength], List.pairwise_cons.mpr ⟨?_, hway⟩,
        List.forall_mem_cons.mpr ⟨.refl, fun i hi => ?_⟩⟩
      · exact fun i hi => TransGen.head' hc (hreaches i hi)
      · exact ReflTransGen.head hc (hreaches i hi)

/-- Where no node leads to itself, no way down is longer than there are nodes. -/
theorem ends_of_acyclic (hstored : ∀ i, s.Reaches id i → i < s.size)
    (hacyclic : ∀ i, s.Reaches id i → ¬ s.Leads i i) : s.Ends s.size id := by
  refine (ends_or_exists_way _ _).resolve_right ?_
  rintro ⟨way, hlength, hway, hreaches⟩
  have hnodup : way.Nodup := by
    refine hway.imp_of_mem fun ha _ hab heq => ?_
    subst heq
    exact hacyclic _ (hreaches _ ha) hab
  have hrange : way ⊆ List.range s.size := fun i hi => List.mem_range.mpr (hstored i (hreaches i hi))
  have hle := (List.subperm_of_subset hnodup hrange).length_le
  rw [List.length_range] at hle
  omega

theorem Rooted.ends (h : s.Rooted) : s.Ends s.size s.root :=
  ends_of_acyclic h.stored h.acyclic

/-- All children are stored, and no node leads to itself. A node may have several parents, or none. -/
structure Acyclic (s : Store) : Prop where
  stored : ∀ id < s.size, ∀ c ∈ s.children id, c < s.size
  acyclic : ∀ id < s.size, ¬ s.Leads id id

namespace Acyclic

theorem lt_size_of_reaches (h : s.Acyclic) (hid : id < s.size) {i : NodeId} (hi : s.Reaches id i) :
    i < s.size := by
  induction hi with
  | refl => exact hid
  | tail _ hchild ih => exact h.stored _ ih _ hchild

theorem ends (h : s.Acyclic) (hid : id < s.size) : s.Ends s.size id :=
  ends_of_acyclic (fun _ hi => h.lt_size_of_reaches hid hi)
    fun i hi => h.acyclic i (h.lt_size_of_reaches hid hi)

/-- Numbers that only grow on the way down lead to no cycle. -/
theorem of_lt (h : ∀ id < s.size, ∀ c ∈ s.children id, id < c ∧ c < s.size) : s.Acyclic := by
  refine ⟨fun id hid c hc => (h id hid c hc).2, fun id hid hcycle => ?_⟩
  have hgrows : ∀ b, s.Leads id b → id < b ∧ b < s.size := by
    intro b hb
    induction hb with
    | single hchild => exact h id hid _ hchild
    | tail _ hchild ih => exact ⟨ih.1.trans (h _ ih.2 _ hchild).1, (h _ ih.2 _ hchild).2⟩
  exact (hgrows id hcycle).1.false

theorem rooted (h : s.Acyclic) (hroot : s.root < s.size) : s.Rooted :=
  ⟨fun _ hi => h.lt_size_of_reaches hroot hi, fun i hi => h.acyclic i (h.lt_size_of_reaches hroot hi)⟩

end Acyclic

/-- Levels that go all the way down hold all nodes from a node on. -/
theorem mem_preorder_iff (h : s.Ends levels a) : b ∈ s.preorder levels a ↔ s.Reaches a b := by
  induction levels generalizing a with
  | zero => exact h.elim
  | succ levels ih =>
    rw [preorder, List.mem_cons, List.mem_flatMap, Reaches, ReflTransGen.cases_head_iff, eq_comm]
    exact or_congr_right (exists_congr fun c => and_congr_right fun hc => ih (h c hc))

theorem Rooted.mem_reachable_iff (h : s.Rooted) : id ∈ s.reachable ↔ s.Reaches s.root id :=
  mem_preorder_iff h.ends

end Store

/-! ## Steady hooks -/

/-- The hook asks to go on at the node, and what holds of the draft holds of what it makes of it. -/
def Hook.Steady {C : Type} (hook : Hook C) (I : Draft → Prop) (id : NodeId) : Prop :=
  ∀ (m : Module) (cx : C), I m.toDraft → ∃ draft cx', hook id m cx = (.ok .proceed, draft, cx') ∧ I draft

structure Plugin.Steady (p : Plugin) (I : Draft → Prop) (id : NodeId) : Prop where
  enter : p.enter.Steady I id
  leave : p.leave.Steady I id

namespace WalkState

variable {C : Type} {I : Draft → Prop} {id : NodeId} {st : WalkState C}

/-- What is done comes to its end, keeps `I`, and enters the links in the parent index. -/
def Completes (I : Draft → Prop) (links : NodeId → NodeId → Prop)
    (action : WalkState C → Except Failure Signal × WalkState C) : Prop :=
  ∀ st, I st.module.toDraft → ∃ st', action st = (.ok .proceed, st') ∧ I st'.module.toDraft ∧
    ∀ c q, (c, q) ∈ st'.module.parents.entries ↔ (c, q) ∈ st.module.parents.entries ∨ links c q

theorem call_of_steady {hook : Hook C} (h : hook.Steady I id) (hst : I st.module.toDraft) :
    ∃ st', st.call hook id = (.ok .proceed, st') ∧ I st'.module.toDraft ∧
      st'.module.parents = st.module.parents := by
  obtain ⟨draft, cx, hcall, hdraft⟩ := h st.module st.context hst
  refine ⟨{ st with module.toDraft := draft, context := cx }, ?_, hdraft, rfl⟩
  rw [call, hcall]
  rfl

theorem mem_entries_arrive (parent : Option NodeId) (c q : NodeId) :
    (c, q) ∈ (st.arrive id parent).module.parents.entries ↔
      (c, q) ∈ st.module.parents.entries ∨ c = id ∧ parent = some q := by
  cases parent with
  | none => simp [arrive]
  | some parent => simp [arrive, ParentIndex.insert, or_comm, eq_comm]

theorem completes_visitAll {visit : NodeId → WalkState C → Except Failure Signal × WalkState C}
    {links : NodeId → NodeId → NodeId → Prop} {ids : List NodeId}
    (h : ∀ id ∈ ids, Completes I (links id) (visit id)) :
    Completes I (fun c q => ∃ id ∈ ids, links id c q) (visitAll visit ids) := by
  induction ids with
  | nil => exact fun st hst => ⟨st, rfl, hst, by simp⟩
  | cons id ids ih =>
    rw [List.forall_mem_cons] at h
    intro st hst
    obtain ⟨st₁, hvisit, hst₁, hlinks₁⟩ := h.1 st hst
    obtain ⟨st₂, hall, hst₂, hlinks₂⟩ := ih h.2 st₁ hst₁
    refine ⟨st₂, by rw [visitAll, hvisit]; exact hall, hst₂, fun c q => ?_⟩
    rw [hlinks₂, hlinks₁, or_assoc]
    simp

end WalkState

namespace Plugin

open WalkState

variable {p : Plugin} {I : Draft → Prop} {s : Store} {id : NodeId}

theorem leaveNode_of_steady {st : WalkState p.Context} (h : p.leave.Steady I id)
    (hst : I st.module.toDraft) :
    ∃ st', p.leaveNode id st = (.ok .proceed, st') ∧ I st'.module.toDraft ∧
      st'.module.parents = st.module.parents := by
  obtain ⟨st', hcall, hst'⟩ := st.call_of_steady h hst
  exact ⟨st', by rw [leaveNode, hcall], hst'⟩

/-- A visit that may go deep enough comes to its end. It enters the node from where it comes, and every
node below from the one it is a child of. -/
theorem completes_visit (hI : ∀ draft, I draft → draft.tree = s) {levels depth : Nat}
    (hends : s.Ends levels id) (hdepth : levels ≤ depth)
    (h : ∀ i ∈ s.preorder levels id, p.Steady I i) (parent : Option NodeId) :
    Completes I (fun c q => c = id ∧ parent = some q ∨ q ∈ s.preorder levels id ∧ c ∈ s.children q)
      (p.visit depth parent id) := by
  induction levels generalizing depth id parent with
  | zero => exact hends.elim
  | succ levels ih =>
    intro st hst
    obtain ⟨depth, rfl⟩ := Nat.exists_eq_add_of_le' (Nat.zero_lt_of_lt hdepth)
    obtain ⟨here, below⟩ := List.forall_mem_cons.mp h
    obtain ⟨st₁, henter, hst₁, hparents₁⟩ := (st.arrive id parent).call_of_steady here.enter hst
    have hchild (c : NodeId) (hc : c ∈ s.children id) :
        Completes I _ (p.visit depth (some id) c) :=
      ih (hends c hc) (Nat.le_of_succ_le_succ hdepth)
        (fun i hi => below i (List.mem_flatMap.mpr ⟨c, hc, hi⟩)) (some id)
    obtain ⟨st₂, hall, hst₂, hlinks⟩ := completes_visitAll hchild st₁ hst₁
    obtain ⟨st₃, hleave, hst₃, hparents₃⟩ := leaveNode_of_steady here.leave hst₂
    refine ⟨st₃, ?_, hst₃, fun c q => ?_⟩
    · rw [visit, henter]
      dsimp only
      rw [hI _ hst₁, hall]
      exact hleave
    · rw [hparents₃, hlinks, hparents₁, mem_entries_arrive, or_assoc, Store.preorder]
      refine or_congr_right (or_congr_right ⟨?_, ?_⟩)
      · rintro ⟨child, hchild, ⟨rfl, hq⟩ | ⟨hq, hc⟩⟩
        · cases hq
          exact ⟨List.mem_cons_self, hchild⟩
        · exact ⟨List.mem_cons_of_mem _ (List.mem_flatMap.mpr ⟨child, hchild, hq⟩), hc⟩
      · rintro ⟨hq, hc⟩
        rcases List.mem_cons.mp hq with rfl | hq
        · exact ⟨c, hc, .inl ⟨rfl, rfl⟩⟩
        · obtain ⟨child, hchild, hq⟩ := List.mem_flatMap.mp hq
          exact ⟨child, hchild, .inr ⟨hq, hc⟩⟩

end Plugin

end Downlevel
