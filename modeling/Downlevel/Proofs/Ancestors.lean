import Mathlib.Data.List.Nodup
import Mathlib.Data.List.Perm.Subperm
import Mathlib.Logic.Relation
import Downlevel.Module

/-!
# Ways up a parent index

A trail leads from a node through its parents to a node that has none. A node has at most one trail,
no node is on it twice, and it is what the index gives as the ancestors of the node
(`Trail.ancestors`). An index in which every node has a trail (`Grounded`) has no cycle, and it stays
so when a node gets a parent whose own trail does not lead through the node (`Grounded.insert`).
-/

namespace Downlevel.ParentIndex

variable {p q : ParentIndex} {a b child parent : NodeId} {ids ids' path : List NodeId}

theorem parent?_insert_of_ne (h : a ≠ child) :
    (p.insert child parent).parent? a = p.parent? a := by
  have hb : (a == child) = false := by simpa using h
  simp [parent?, insert, List.lookup_cons, hb]

theorem parent?_insert_self : (p.insert child parent).parent? child = some parent := by
  simp [parent?, insert]

theorem mem_map_snd_entries (h : p.parent? a = some b) : b ∈ p.entries.map Prod.snd := by
  obtain ⟨_, _, hsplit, -⟩ := List.lookup_eq_some_iff.mp h
  simp [hsplit]

/-! ## Trails -/

/-- Each of these nodes was entered from the next, and the last is the root. -/
def Trail (p : ParentIndex) : List NodeId → Prop
  | [] => True
  | [a] => p.parent? a = none
  | a :: b :: ids => p.parent? a = some b ∧ p.Trail (b :: ids)

namespace Trail

theorem tail (h : p.Trail (a :: ids)) : p.Trail ids := by
  cases ids with
  | nil => trivial
  | cons b ids => exact h.2

theorem of_append : ∀ {front : List NodeId}, p.Trail (front ++ ids) → p.Trail ids
  | [], h => h
  | _ :: _, h => of_append h.tail

theorem congr : ∀ {ids : List NodeId}, p.Trail ids →
    (∀ a ∈ ids, q.parent? a = p.parent? a) → q.Trail ids
  | [], _, _ => trivial
  | [a], h, hq => (hq a (by simp)).trans h
  | a :: b :: ids, h, hq =>
    ⟨(hq a (by simp)).trans h.1, Trail.congr h.2 fun c hc => hq c (List.mem_cons_of_mem _ hc)⟩

/-- A node has one trail only. -/
theorem unique (h : p.Trail (a :: ids)) (h' : p.Trail (a :: ids')) : ids = ids' := by
  induction ids generalizing a ids' with
  | nil =>
    cases ids' with
    | nil => rfl
    | cons b' ids' => cases h.symm.trans h'.1
  | cons b ids ih =>
    cases ids' with
    | nil => cases h.1.symm.trans h'
    | cons b' ids' =>
      obtain rfl : b = b' := Option.some.inj (h.1.symm.trans h'.1)
      rw [ih h.2 h'.2]

theorem nodup : ∀ {ids : List NodeId}, p.Trail ids → ids.Nodup
  | [], _ => List.nodup_nil
  | a :: ids, h => by
    refine List.nodup_cons.mpr ⟨fun ha => ?_, h.tail.nodup⟩
    -- A trail that comes back to `a` would be longer than itself.
    obtain ⟨front, back, rfl⟩ := List.append_of_mem ha
    have hback : front ++ a :: back = back := h.unique h.tail.of_append
    have := congrArg List.length hback
    simp at this
    omega

theorem mem_map_snd_of_mem : ∀ {a : NodeId} {ids : List NodeId}, p.Trail (a :: ids) →
    ∀ b ∈ ids, b ∈ p.entries.map Prod.snd
  | _, [], _ => fun _ hb => absurd hb List.not_mem_nil
  | _, _ :: _, h => List.forall_mem_cons.mpr ⟨mem_map_snd_entries h.1, mem_map_snd_of_mem h.2⟩

theorem length_le (h : p.Trail (a :: ids)) : ids.length ≤ p.entries.length := by
  have hsub : ids.Subperm (p.entries.map Prod.snd) :=
    List.subperm_of_subset h.tail.nodup h.mem_map_snd_of_mem
  simpa using hsub.length_le

theorem ancestorsWithin (h : p.Trail (a :: ids)) :
    ∀ {n}, ids.length ≤ n → p.ancestorsWithin n a = ids := by
  induction ids generalizing a with
  | nil =>
    intro n _
    cases n with
    | zero => rfl
    | succ n => rw [ParentIndex.ancestorsWithin, show p.parent? a = none from h]
  | cons b ids ih =>
    rintro (_ | n) hn
    · simp at hn
    · rw [ParentIndex.ancestorsWithin, h.1]
      exact congrArg (b :: ·) (ih h.2 (Nat.le_of_succ_le_succ hn))

theorem ancestors (h : p.Trail (a :: ids)) : p.ancestors a = ids :=
  h.ancestorsWithin h.length_le

/-- A node that gets a parent has the trail of its parent from then on. -/
theorem insert (h : p.Trail (parent :: path)) (hchild : child ∉ parent :: path) :
    (p.insert child parent).Trail (child :: parent :: path) :=
  ⟨parent?_insert_self, h.congr fun _ ha => parent?_insert_of_ne fun hne => hchild (hne ▸ ha)⟩

theorem mem_of_parent? (h : p.Trail (a :: ids)) (hb : p.parent? a = some b) : b ∈ ids := by
  cases ids with
  | nil => cases h.symm.trans hb
  | cons c ids =>
    cases h.1.symm.trans hb
    exact List.mem_cons_self

theorem mem_of_transGen (h : p.Trail (a :: ids))
    (hb : Relation.TransGen (fun a b => p.parent? a = some b) a b) : b ∈ ids := by
  induction hb with
  | single hb => exact h.mem_of_parent? hb
  | tail _ hc ih =>
    obtain ⟨front, back, rfl⟩ := List.append_of_mem ih
    exact List.mem_append_right _ (List.mem_cons_of_mem _ (h.tail.of_append.mem_of_parent? hc))

end Trail

/-! ## Indices without cycles -/

/-- No node is an ancestor of itself. -/
def Acyclic (p : ParentIndex) : Prop :=
  ∀ id, ¬ Relation.TransGen (fun a b => p.parent? a = some b) id id

/-- The ancestors of every node are all there: the last of them has no parent. -/
def Grounded (p : ParentIndex) : Prop :=
  ∀ id, p.Trail (id :: p.ancestors id)

theorem Grounded.acyclic (h : p.Grounded) : p.Acyclic :=
  fun id hid => (List.nodup_cons.mp (h id).nodup).1 ((h id).mem_of_transGen hid)

theorem grounded_of_exists (h : ∀ id, ∃ ids, p.Trail (id :: ids)) : p.Grounded := by
  intro id
  obtain ⟨ids, hids⟩ := h id
  rwa [hids.ancestors]

theorem grounded_empty : Grounded {} :=
  fun _ => rfl

/-- Every trail of the index is still one after the insertion, or leads to `child` and from there
along the path. -/
theorem Grounded.insert (h : p.Grounded) (hparent : p.Trail (parent :: path))
    (hchild : child ∉ parent :: path) : (p.insert child parent).Grounded := by
  have hnew := hparent.insert hchild
  refine grounded_of_exists fun id => ?_
  have hold := h id
  generalize p.ancestors id = ids at hold
  induction ids generalizing id with
  | nil =>
    rcases eq_or_ne id child with rfl | hid
    · exact ⟨_, hnew⟩
    · exact ⟨[], (parent?_insert_of_ne hid).trans hold⟩
  | cons b ids ih =>
    rcases eq_or_ne id child with rfl | hid
    · exact ⟨_, hnew⟩
    · obtain ⟨ids', hids'⟩ := ih b hold.2
      exact ⟨b :: ids', (parent?_insert_of_ne hid).trans hold.1, hids'⟩

end Downlevel.ParentIndex
