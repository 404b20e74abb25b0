import Downlevel.Proofs.Steady

/-!
# Walks that change nothing

A hook rests at a node if it leaves every module with the same tree as it is, and asks to go on. A
plugin whose hooks rest at all nodes that the root leads to walks them all and leaves the draft that it
found (`Plugin.run_of_rests`).
-/

namespace Downlevel

/-- The hook makes nothing of the node in a module with this tree. Its own context it may change. -/
def Hook.Rests {C : Type} (hook : Hook C) (s : Store) (id : NodeId) : Prop :=
  ∀ (m : Module) (cx : C), m.tree = s → ∃ cx', hook id m cx = (.ok .proceed, m.toDraft, cx')

structure Plugin.Rests (p : Plugin) (s : Store) (id : NodeId) : Prop where
  enter : p.enter.Rests s id
  leave : p.leave.Rests s id

variable {C : Type} {s : Store} {id : NodeId}

theorem Hook.rests_pass : (Hook.pass : Hook C).Rests s id :=
  fun _ cx _ => ⟨cx, rfl⟩

theorem Hook.rests_edit {f : NodeId → Store → Store} (h : f id s = s) :
    (Hook.edit f : Hook C).Rests s id := by
  rintro m cx rfl
  exact ⟨cx, by rw [Hook.edit, Draft.edit, h]⟩

theorem Hook.Rests.steady {hook : Hook C} {draft : Draft} (h : hook.Rests draft.tree id) :
    hook.Steady (· = draft) id := by
  rintro m cx rfl
  obtain ⟨cx', hcall⟩ := h m cx rfl
  exact ⟨m.toDraft, cx', hcall, rfl⟩

namespace Plugin

variable {p : Plugin}

/-- A pass that rests at every node leaves the draft as it was. -/
theorem run_of_rests {m : Module} {levels : Nat} (hstart : p.start m = (.ok p.initial, m.toDraft))
    (hfinish : ∀ m cx, p.finish m cx = (.ok (), m.toDraft)) (hends : m.tree.Ends levels m.tree.root)
    (hdepth : levels ≤ depthLimit m.tree)
    (h : ∀ id ∈ m.tree.preorder levels m.tree.root, p.Rests m.tree id) :
    ∃ walked m', p.run m = (.ok walked, m') ∧ m'.toDraft = m.toDraft := by
  let start : WalkState p.Context := ⟨{ m with parents := {} }, p.initial, 0⟩
  have hsame : start.module.toDraft = m.toDraft := rfl
  obtain ⟨st, hvisit, hst, -⟩ := completes_visit (by rintro _ rfl; rfl) hends hdepth
    (fun id hid => ⟨(h id hid).enter.steady, (h id hid).leave.steady⟩) none start hsame
  have hwalk : p.walk m p.initial = (.ok ⟨st.entered, false⟩, st.module, st.context) := by
    rw [walk_eq, hvisit]
    rfl
  exact ⟨_, _, run_of_walk hstart hwalk hfinish, hst⟩

end Plugin

end Downlevel
