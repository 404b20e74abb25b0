import Mathlib.Data.List.Forall2
import Downlevel.Proofs.Calls

/-!
# The protocol of a run

The calls of the hooks of a plugin in one walk follow a grammar (`Call.Visits`): a node is entered, then
its children are visited unless they are to be skipped, then the node is left, up to the first call that
asks to stop or fails. From the grammar follow the laws of a pass (`Trace.Lawful`), and from those the
protocol of a whole run (`runAll_lifecycle`): passes come one after another, each from its start to its
finish, until one fails; and nothing but the hooks changes the tree and the diagnostics. How deep walks
may go does not matter, unless one is cut off.
-/

namespace Downlevel

/-- An element that stands out comes last if those before the last do not. -/
theorem last_of_quiet {α β : Type} {f : α → Option β} {front before after : List α} {d c : α}
    (hquiet : ∀ x ∈ front, f x = none) (hsplit : front ++ [d] = before ++ c :: after)
    (hc : f c ≠ none) : after = [] ∧ d = c := by
  rcases List.eq_nil_or_concat' after with rfl | ⟨after, e, rfl⟩
  · obtain ⟨-, hdc⟩ := List.append_inj' hsplit rfl
    cases hdc
    exact ⟨rfl, rfl⟩
  · rw [← List.cons_append, ← List.append_assoc] at hsplit
    obtain ⟨rfl, -⟩ := List.append_inj' hsplit rfl
    exact absurd (hquiet c (by simp)) hc

namespace Call

variable {c d : Call} {n : NodeId} {ns : List NodeId} {start calls more rest : List Call}
  {o : Except Failure Signal}

/-! ## The grammar of a walk -/

/-- How a call ends the walk, if it does. -/
def ending? (c : Call) : Option (Except Failure Signal) :=
  match c.reply with
  | .error e => some (.error (.hook e))
  | .ok .stop => some (.ok .stop)
  | .ok _ => none

theorem ending?_eq_some (h : c.ending? = some o) :
    (∃ e, c.reply = .error e ∧ o = .error (.hook e)) ∨ (c.reply = .ok .stop ∧ o = .ok .stop) := by
  rw [ending?] at h
  split at h
  · exact .inl ⟨_, ‹_›, (Option.some.inj h).symm⟩
  · exact .inr ⟨‹_›, (Option.some.inj h).symm⟩
  · cases h

theorem ne_proceed_of_ending? (h : c.ending? = some o) : o ≠ .ok .proceed := by
  rintro rfl
  rcases ending?_eq_some h with ⟨e, -, ho⟩ | ⟨-, ho⟩ <;> cases ho

/-- The nodes to visit once a node has been entered: its children as the call left them, or none. -/
def below (c : Call) : List NodeId :=
  match c.reply with
  | .ok .proceed => c.left.tree.children c.node
  | _ => []

/-- The call is for node `n`. -/
structure Is (c : Call) (moment : Moment) (n : NodeId) : Prop where
  moment : c.moment = moment
  node : c.node = n

/-- The calls of a walk through nodes, one after another, and its outcome. A walk that goes too deep ends
before the next node is entered. -/
inductive Visits : List NodeId → List Call → Except Failure Signal → Prop
  | done : Visits [] [] (.ok .proceed)
  | tooDeep {n : NodeId} {ns : List NodeId} : Visits (n :: ns) [] (.error .tooDeep)
  /-- The walk ends as a node is entered. -/
  | entering {n : NodeId} {ns : List NodeId} {c : Call} {o : Except Failure Signal} :
    c.Is .enter n → c.ending? = some o → Visits (n :: ns) [c] o
  /-- It ends below a node. -/
  | within {n : NodeId} {ns : List NodeId} {c : Call} {inner : List Call}
      {o : Except Failure Signal} :
    c.Is .enter n → c.ending? = none → Visits c.below inner o → o ≠ .ok .proceed →
      Visits (n :: ns) (c :: inner) o
  /-- It ends as a node is left. -/
  | leaving {n : NodeId} {ns : List NodeId} {c d : Call} {inner : List Call}
      {o : Except Failure Signal} :
    c.Is .enter n → c.ending? = none → Visits c.below inner (.ok .proceed) → d.Is .leave n →
      d.ending? = some o → Visits (n :: ns) (c :: (inner ++ [d])) o
  /-- It goes on to the next node. -/
  | next {n : NodeId} {ns : List NodeId} {c d : Call} {inner more : List Call}
      {o : Except Failure Signal} :
    c.Is .enter n → c.ending? = none → Visits c.below inner (.ok .proceed) → d.Is .leave n →
      d.ending? = none → Visits ns more o → Visits (n :: ns) (c :: (inner ++ d :: more)) o

namespace Visits

/-- After a node whose visit does not end the walk come the others. -/
theorem append (h : Visits [n] calls (.ok .proceed)) (hmore : Visits ns more o) :
    Visits (n :: ns) (calls ++ more) o := by
  cases h with
  | entering hc hend => exact absurd rfl (ne_proceed_of_ending? hend)
  | within hc hnone hinner hne => exact absurd rfl hne
  | leaving hc hnone hinner hd hend => exact absurd rfl (ne_proceed_of_ending? hend)
  | next hc hnone hinner hd hend hrest =>
    cases hrest
    simpa using Visits.next hc hnone hinner hd hend hmore

/-- After a node whose visit ends the walk comes nothing. -/
theorem stop (h : Visits [n] calls o) (ho : o ≠ .ok .proceed) : Visits (n :: ns) calls o := by
  cases h with
  | tooDeep => exact .tooDeep
  | entering hc hend => exact .entering hc hend
  | within hc hnone hinner hne => exact .within hc hnone hinner hne
  | leaving hc hnone hinner hd hend => exact .leaving hc hnone hinner hd hend
  | next hc hnone hinner hd hend hrest =>
    cases hrest
    exact absurd rfl ho

/-- To skip is what a hook asks, not how a walk ends. -/
theorem ne_skip (h : Visits ns calls o) : o ≠ .ok .skip := by
  induction h with
  | done | tooDeep => nofun
  | entering hc hend | leaving hc hnone hinner hd hend =>
    rintro rfl
    rcases ending?_eq_some hend with ⟨e, -, ho⟩ | ⟨-, ho⟩ <;> cases ho
  | within _ _ _ _ ih => exact ih
  | next _ _ _ _ _ _ _ ihmore => exact ihmore

end Visits

/-! ## The last call -/

/-- No call of these ends the walk. -/
def Quiet (calls : List Call) : Prop :=
  ∀ c ∈ calls, c.ending? = none

/-- No call but the last ends the walk, and the last one does so with outcome `o`. If none does, the walk
is complete or too deep. -/
def Ends (calls : List Call) (o : Except Failure Signal) : Prop :=
  (Quiet calls ∧ (o = .ok .proceed ∨ o = .error .tooDeep)) ∨
    ∃ front c, calls = front ++ [c] ∧ Quiet front ∧ c.ending? = some o

theorem Ends.quiet (h : Ends calls (.ok .proceed)) : Quiet calls := by
  rcases h with ⟨hquiet, -⟩ | ⟨front, c, -, -, hend⟩
  · exact hquiet
  · exact absurd rfl (ne_proceed_of_ending? hend)

/-- Calls before do not matter if they do not end the walk. -/
theorem Ends.prepend (h : Ends calls o) {front : List Call} (hfront : Quiet front) :
    Ends (front ++ calls) o := by
  rcases h with ⟨hquiet, ho⟩ | ⟨front', c, rfl, hquiet, hend⟩
  · exact .inl ⟨List.forall_mem_append.mpr ⟨hfront, hquiet⟩, ho⟩
  · exact .inr ⟨front ++ front', c, by simp, List.forall_mem_append.mpr ⟨hfront, hquiet⟩, hend⟩

theorem Visits.ends (h : Visits ns calls o) : Ends calls o := by
  induction h with
  | done => exact .inl ⟨nofun, .inl rfl⟩
  | tooDeep => exact .inl ⟨nofun, .inr rfl⟩
  | entering hc hend => exact .inr ⟨[], _, rfl, nofun, hend⟩
  | @within n ns c inner o hc hnone _ _ ih =>
    exact ih.prepend (List.forall_mem_singleton.mpr hnone)
  | @leaving n ns c d inner o hc hnone _ hd hend ih =>
    exact .inr ⟨c :: inner, d, rfl, List.forall_mem_cons.mpr ⟨hnone, ih.quiet⟩, hend⟩
  | @next n ns c d inner more o hc hnone _ hd hend _ ih ihmore =>
    have hfront : Quiet (c :: (inner ++ [d])) :=
      List.forall_mem_cons.mpr ⟨hnone, List.forall_mem_append.mpr
        ⟨ih.quiet, List.forall_mem_singleton.mpr hend⟩⟩
    simpa using ihmore.prepend hfront

/-- Nothing comes after a call that ends the walk. -/
theorem Visits.last (h : Visits ns calls o) {before after : List Call} {o' : Except Failure Signal}
    (hsplit : calls = before ++ c :: after) (hc : c.ending? = some o') : after = [] ∧ o = o' := by
  rcases h.ends with ⟨hquiet, -⟩ | ⟨front, d, rfl, hquiet, hend⟩
  · have := hquiet c (by simp [hsplit])
    cases this.symm.trans hc
  · obtain ⟨rfl, rfl⟩ := last_of_quiet hquiet hsplit (by simp [hc])
    exact ⟨rfl, Option.some.inj (hend.symm.trans hc)⟩

/-! ## Nesting -/

/-- Every call of a stretch satisfies `P`, with the calls before it, from `start` on, and those after
it, up to `rest`. -/
def Throughout (P : List Call → Call → List Call → Prop) (start calls rest : List Call) : Prop :=
  ∀ before c after, calls = before ++ c :: after → P (start ++ before) c (after ++ rest)

section Throughout

variable {P Q : List Call → Call → List Call → Prop}

theorem throughout_nil : Throughout P start [] rest := by
  intro before c after h
  simp at h

theorem throughout_cons : Throughout P start (c :: calls) rest ↔
    P start c (calls ++ rest) ∧ Throughout P (start ++ [c]) calls rest := by
  constructor
  · intro h
    refine ⟨by simpa using h [] c calls rfl, fun before d after hd => ?_⟩
    simpa using h (c :: before) d after (by simp [hd])
  · rintro ⟨hc, h⟩ before d after hd
    cases before with
    | nil =>
      obtain ⟨rfl, rfl⟩ := List.cons_eq_cons.mp hd
      simpa using hc
    | cons e before =>
      obtain ⟨rfl, rfl⟩ := List.cons_eq_cons.mp hd
      simpa using h before d after rfl

theorem throughout_append : Throughout P start (calls ++ more) rest ↔
    Throughout P start calls (more ++ rest) ∧ Throughout P (start ++ calls) more rest := by
  induction calls generalizing start with
  | nil => simp [throughout_nil]
  | cons c calls ih => simp [throughout_cons, ih, and_assoc]

theorem Throughout.mono (h : Throughout P start calls rest)
    (hPQ : ∀ before c after, P (start ++ before) c after → Q (start ++ before) c after) :
    Throughout Q start calls rest :=
  fun before c after hsplit => hPQ before c _ (h before c after hsplit)

end Throughout

/-- A visit that does not end the walk comes back to where it was made from. -/
theorem Visits.activePath_append (h : Visits ns calls o) (ho : o = .ok .proceed)
    (start : List Call) : activePath (start ++ calls) = activePath start := by
  induction h generalizing start with
  | done => simp
  | tooDeep => cases ho
  | entering hc hend => exact absurd ho (ne_proceed_of_ending? hend)
  | within hc hnone hinner hne => exact absurd ho hne
  | leaving hc hnone hinner hd hend => exact absurd ho (ne_proceed_of_ending? hend)
  | @next n ns c d inner more o hc hnone hinner hd hend hmore ih ihmore =>
    have hback : activePath (start ++ [c] ++ inner ++ [d]) = activePath start := by
      rw [activePath_concat, ih rfl, activePath_concat, hd.moment, hc.moment]
      rfl
    have hall : start ++ c :: (inner ++ d :: more) = start ++ [c] ++ inner ++ [d] ++ more := by simp
    rw [hall, ihmore ho, hback]

/-- Where a call stands in a walk through `ns` from `start` on. A node is left when it is the last that
was entered and not left. One of `ns` is entered where the walk started; any other when the last node
entered and not left has it below it. A node whose children are skipped is left at once. -/
structure Placed (ns : List NodeId) (start before : List Call) (c : Call) (after : List Call) :
    Prop where
  leave : c.moment = .leave → (activePath before).head? = some c.node
  enter : c.moment = .enter → (activePath before = activePath start ∧ c.node ∈ ns) ∨
    ∃ e ∈ before, e.moment = .enter ∧ (activePath before).head? = some e.node ∧ c.node ∈ e.below
  skip : c.moment = .enter → c.reply = .ok .skip → ∃ d ∈ after.head?, d.Is .leave c.node

theorem below_of_skip (h : c.reply = .ok .skip) : c.below = [] := by
  rw [below, h]

theorem placed_enter (hc : c.Is .enter n)
    (hskip : c.reply = .ok .skip → ∃ d ∈ rest.head?, d.Is .leave n) :
    Placed (n :: ns) start start c rest where
  leave hleave := nomatch hc.moment.symm.trans hleave
  enter _ := .inl ⟨rfl, hc.node ▸ List.mem_cons_self⟩
  skip _ hreply := hc.node ▸ hskip hreply

/-- What stands in its place below a node does so in the walk that the node is part of. -/
theorem placed_below (hc : c.Is .enter n) (h : Throughout (Placed c.below (start ++ [c]))
    (start ++ [c]) calls rest) : Throughout (Placed (n :: ns) start) (start ++ [c]) calls rest := by
  refine h.mono fun before d after hd => ⟨hd.leave, fun hmoment => .inr ?_, hd.skip⟩
  rcases hd.enter hmoment with ⟨hpath, hmem⟩ | habove
  · refine ⟨c, by simp, hc.moment, ?_, hmem⟩
    rw [hpath, activePath_concat, hc.moment]
    rfl
  · exact habove

/-- A node that is entered and left, with what lies below it in between. -/
theorem placed_node {inner : List Call} (hc : c.Is .enter n)
    (hinner : Visits c.below inner (.ok .proceed)) (hd : d.Is .leave n)
    (hplaced : ∀ start rest, Throughout (Placed c.below start) start inner rest) :
    Throughout (Placed (n :: ns) start) start (c :: (inner ++ [d])) rest := by
  have hpath : activePath (start ++ [c] ++ inner) = n :: activePath start := by
    rw [hinner.activePath_append rfl, activePath_concat, hc.moment, hc.node]
  refine throughout_cons.mpr ⟨placed_enter hc fun hskip => ?_, throughout_append.mpr
    ⟨placed_below hc (hplaced _ _), throughout_cons.mpr ⟨?_, throughout_nil⟩⟩⟩
  · rw [below_of_skip hskip] at hinner
    cases hinner
    exact ⟨d, rfl, hd⟩
  · have hmoment : d.moment ≠ .enter := by
      rw [hd.moment]
      nofun
    refine ⟨fun _ => ?_, fun henter => absurd henter hmoment, fun henter => absurd henter hmoment⟩
    rw [hpath, hd.node]
    rfl

theorem Visits.placed (h : Visits ns calls o) (start rest : List Call) :
    Throughout (Placed ns start) start calls rest := by
  induction h generalizing start rest with
  | done | tooDeep => exact throughout_nil
  | entering hc hend =>
    refine throughout_cons.mpr ⟨placed_enter hc fun hskip => ?_, throughout_nil⟩
    simp [ending?, hskip] at hend
  | within hc hnone hinner hne ih =>
    refine throughout_cons.mpr ⟨placed_enter hc fun hskip => ?_, placed_below hc (ih _ _)⟩
    rw [below_of_skip hskip] at hinner
    cases hinner
    exact absurd rfl hne
  | leaving hc hnone hinner hd hend ih => exact placed_node hc hinner hd ih
  | @next n ns c d inner more o hc hnone hinner hd hend hmore ih ihmore =>
    have hsplit : c :: (inner ++ d :: more) = c :: (inner ++ [d]) ++ more := by simp
    have hback : activePath (start ++ c :: (inner ++ [d])) = activePath start :=
      (Visits.next hc hnone hinner hd hend .done).activePath_append rfl start
    rw [hsplit]
    refine throughout_append.mpr ⟨placed_node hc hinner hd ih, ?_⟩
    refine (ihmore _ _).mono fun before e after he => ⟨he.leave, fun hmoment => ?_, he.skip⟩
    rcases he.enter hmoment with ⟨hpath, hmem⟩ | habove
    · exact .inl ⟨hpath.trans hback, List.mem_cons_of_mem _ hmem⟩
    · exact .inr habove

end Call

/-! ## Walks -/

/-- A hook of a plugin. -/
inductive HookName where
  | start
  | node (moment : Moment) (id : NodeId)
  | finish

/-- The failure that a hook replies with, if it does. -/
def failure? {α : Type} : Except String α → Option String
  | .error e => some e
  | .ok _ => none

/-- A call of a hook in a run: the module it is given, how it fails if it does, and what it makes of the
draft. -/
structure Event where
  hook : HookName
  seen : Module
  failure : Option String
  left : Draft

def Call.event (c : Call) : Event :=
  ⟨.node c.moment c.node, c.seen, failure? c.reply, c.left⟩

/-- The same tree with the same diagnostics. -/
structure Draft.Same (d d' : Draft) : Prop where
  tree : d.tree = d'.tree
  diagnostics : d.diagnostics = d'.diagnostics

/-- Each hook is given what the one before it left, from `d` to `d'`: nothing else makes a change, and
none is undone. -/
def Threads (d : Draft) : List Event → Draft → Prop
  | [], d' => d.Same d'
  | e :: events, d' => d.Same e.seen.toDraft ∧ Threads e.left events d'

theorem Draft.Same.trans {d d' d'' : Draft} (h : d.Same d') (h' : d'.Same d'') : d.Same d'' :=
  ⟨h.tree.trans h'.tree, h.diagnostics.trans h'.diagnostics⟩

theorem Threads.of_same {d d' d'' : Draft} {events : List Event} (h : d.Same d')
    (hevents : Threads d' events d'') : Threads d events d'' := by
  cases events with
  | nil => exact h.trans hevents
  | cons e events => exact ⟨h.trans hevents.1, hevents.2⟩

theorem Threads.append {d d' d'' : Draft} {events more : List Event} (h : Threads d events d')
    (hmore : Threads d' more d'') : Threads d (events ++ more) d'' := by
  induction events generalizing d with
  | nil => exact hmore.of_same h
  | cons e events ih => exact ⟨h.1, ih h.2⟩

/-- The call is one of the plugin's hooks. -/
def Plugin.Makes (p : Plugin) (c : Call) : Prop :=
  ∃ cx cx', (match c.moment with
    | .enter => p.enter
    | .leave => p.leave) c.node c.seen cx = (c.reply, c.left, cx')

namespace Plugin

open Call WalkState

variable {p : Plugin} {ids : List NodeId}

/-- What a walk has called between two states, and what that did. -/
structure Logs (p : Plugin) (s : WalkState p.noting.Context) (calls : List Call)
    (s' : WalkState p.noting.Context) : Prop where
  calls_eq : s'.calls = s.calls ++ calls
  threads : Threads s.module.toDraft (calls.map Call.event) s'.module.toDraft
  entered : s'.entered = s.entered + calls.countP (·.moment = .enter)
  made : ∀ c ∈ calls, p.Makes c

theorem logs_nil (s : WalkState p.noting.Context) : p.Logs s [] s :=
  ⟨(List.append_nil _).symm, ⟨rfl, rfl⟩, rfl, nofun⟩

theorem Logs.append {s s' s'' : WalkState p.noting.Context} {calls more : List Call}
    (h : p.Logs s calls s') (hmore : p.Logs s' more s'') : p.Logs s (calls ++ more) s'' where
  calls_eq := by rw [hmore.calls_eq, h.calls_eq, List.append_assoc]
  threads := by
    rw [List.map_append]
    exact h.threads.append hmore.threads
  entered := by rw [hmore.entered, h.entered, List.countP_append, Nat.add_assoc]
  made := List.forall_mem_append.mpr ⟨h.made, hmore.made⟩

theorem logs_enter (parent : Option NodeId) (id : NodeId) (s : WalkState p.noting.Context) :
    p.Logs s [(s.arrive id parent).noted .enter p.enter id]
      ((s.arrive id parent).call p.noting.enter id).2 :=
  ⟨rfl, ⟨⟨rfl, rfl⟩, rfl, rfl⟩, rfl, List.forall_mem_singleton.mpr ⟨_, _, rfl⟩⟩

theorem logs_leave (id : NodeId) (s : WalkState p.noting.Context) :
    p.Logs s [s.noted .leave p.leave id] (s.call p.noting.leave id).2 :=
  ⟨rfl, ⟨⟨rfl, rfl⟩, rfl, rfl⟩, rfl, List.forall_mem_singleton.mpr ⟨_, _, rfl⟩⟩

/-- A walk through nodes, and the calls it makes. -/
def Walks (p : Plugin) (ids : List NodeId) (s : WalkState p.noting.Context)
    (r : Except Failure Signal × WalkState p.noting.Context) : Prop :=
  ∃ calls, p.Logs s calls r.2 ∧ Visits ids calls r.1

theorem leaveNode_eq (id : NodeId) (s : WalkState p.noting.Context) :
    p.noting.leaveNode id s
      = ((s.noted .leave p.leave id).ending?.getD (.ok .proceed), (s.call p.noting.leave id).2) := by
  have hcall : s.call p.noting.leave id
      = ((s.noted .leave p.leave id).reply.mapError .hook, (s.call p.noting.leave id).2) := rfl
  rw [leaveNode, hcall, ending?]
  generalize (s.call p.noting.leave id).2 = s'
  rcases (s.noted .leave p.leave id).reply with _ | signal
  · rfl
  · cases signal <;> rfl

/-- A visit goes on as the call that enters the node says, and then as the visits below it do. -/
theorem visit_eq (depth : Nat) (parent : Option NodeId) (id : NodeId)
    (s : WalkState p.noting.Context) {c : Call} {s' : WalkState p.noting.Context}
    (hc : (s.arrive id parent).noted .enter p.enter id = c)
    (hs' : ((s.arrive id parent).call p.noting.enter id).2 = s') :
    p.noting.visit (depth + 1) parent id s = match c.ending? with
      | some o => (o, s')
      | none => match visitAll (p.noting.visit depth (some id)) c.below s' with
        | (.error e, s) => (.error e, s)
        | (.ok .stop, s) => (.ok .stop, s)
        | (.ok _, s) => p.noting.leaveNode id s := by
  have hcall : (s.arrive id parent).call p.noting.enter id = (c.reply.mapError .hook, s') := by
    rw [← hc, ← hs']
    rfl
  have hbelow : c.left.tree.children c.node = s'.module.tree.children id := by
    rw [← hc, ← hs']
    rfl
  rw [visit, hcall, ending?, below, hbelow]
  rcases c.reply with _ | signal
  · rfl
  · cases signal with
    | stop | skip => rfl
    | proceed =>
      simp only [Except.mapError]
      generalize visitAll (p.noting.visit depth (some id)) (s'.module.tree.children id) s' = r
      obtain ⟨_ | signal, s⟩ := r
      · rfl
      · cases signal <;> rfl

theorem walks_visitAll
    {visit : NodeId → WalkState p.noting.Context →
      Except Failure Signal × WalkState p.noting.Context}
    (hvisit : ∀ id s, p.Walks [id] s (visit id s)) :
    ∀ ids s, p.Walks ids s (visitAll visit ids s)
  | [], s => ⟨[], logs_nil s, .done⟩
  | id :: ids, s => by
    obtain ⟨calls, hlogs, hvisits⟩ := hvisit id s
    rw [visitAll]
    generalize visit id s = r at hlogs hvisits
    obtain ⟨_ | signal, s'⟩ := r
    · exact ⟨calls, hlogs, hvisits.stop (by simp)⟩
    · cases signal with
      | stop => exact ⟨calls, hlogs, hvisits.stop (by simp)⟩
      | skip => exact absurd rfl hvisits.ne_skip
      | proceed =>
        obtain ⟨more, hmore, hvisits'⟩ := walks_visitAll hvisit ids s'
        exact ⟨calls ++ more, hlogs.append hmore, hvisits.append hvisits'⟩

/-- The calls of a visit are those that enter and leave the node, and what comes in between. -/
theorem walks_visit (depth : Nat) (parent : Option NodeId) (id : NodeId)
    (s : WalkState p.noting.Context) : p.Walks [id] s (p.noting.visit depth parent id s) := by
  induction depth generalizing parent id s with
  | zero => exact ⟨[], logs_nil s, .tooDeep⟩
  | succ depth ih =>
    have henter := logs_enter parent id s
    have hc : ((s.arrive id parent).noted .enter p.enter id).Is .enter id := ⟨rfl, rfl⟩
    rw [visit_eq depth parent id s rfl rfl]
    generalize (s.arrive id parent).noted .enter p.enter id = c at henter hc
    generalize ((s.arrive id parent).call p.noting.enter id).2 = s₁ at henter
    cases hend : c.ending? with
    | some o => exact ⟨[c], henter, .entering hc hend⟩
    | none =>
      obtain ⟨inner, hlogs, hvisits⟩ := walks_visitAll (ih (some id)) c.below s₁
      dsimp only
      generalize visitAll (p.noting.visit depth (some id)) c.below s₁ = r at hlogs hvisits
      obtain ⟨_ | signal, s₂⟩ := r
      · exact ⟨c :: inner, henter.append hlogs, .within hc hend hvisits nofun⟩
      · cases signal with
        | stop => exact ⟨c :: inner, henter.append hlogs, .within hc hend hvisits nofun⟩
        | skip => exact absurd rfl hvisits.ne_skip
        | proceed =>
          have hleave := (henter.append hlogs).append (logs_leave id s₂)
          have hd : (s₂.noted .leave p.leave id).Is .leave id := ⟨rfl, rfl⟩
          change p.Walks [id] s (p.noting.leaveNode id s₂)
          rw [leaveNode_eq]
          refine ⟨_, hleave, ?_⟩
          cases hlast : (s₂.noted .leave p.leave id).ending? with
          | some o => exact .leaving hc hend hvisits hd hlast
          | none => exact .next hc hend hvisits hd hlast .done

/-- The calls of a walk, and what it reports. -/
theorem walk_calls (p : Plugin) (depth : Nat) (m : Module) (context : p.Context) :
    ∃ o : Except Failure Signal, Visits [m.tree.root] (p.callsWithin depth m context) o ∧
      (p.walkWithin depth m context).1 = o.map (fun signal =>
        ⟨(p.callsWithin depth m context).countP (·.moment = .enter), signal = .stop⟩) ∧
      Threads m.toDraft ((p.callsWithin depth m context).map Call.event)
        (p.walkWithin depth m context).2.1.toDraft ∧
      ∀ c ∈ p.callsWithin depth m context, p.Makes c := by
  obtain ⟨calls, hlogs, hvisits⟩ := p.walks_visit depth none m.tree.root
    ⟨{ m with parents := {} }, (context, []), 0⟩
  rw [walkWithin_noting, callsWithin, walkWithin_eq]
  generalize p.noting.visit _ none m.tree.root _ = r at hlogs hvisits
  obtain ⟨o, s⟩ := r
  obtain rfl : s.calls = calls := hlogs.calls_eq
  have hentered : s.entered = s.calls.countP (·.moment = .enter) := by
    rw [hlogs.entered, Nat.zero_add]
  refine ⟨o, hvisits, ?_, hlogs.threads, hlogs.made⟩
  change (o.map fun signal => (⟨s.entered, signal = .stop⟩ : Walked)) = _
  rw [hentered]
  rfl

end Plugin

/-! ## Passes -/

/-- The calls of a pass: of the hook that starts it, of those for nodes, and of the one that finishes it,
if it comes to that. -/
structure Trace where
  started : Event
  calls : List Call
  finished : Option Event

def Trace.events (t : Trace) : List Event :=
  t.started :: (t.calls.map Call.event ++ t.finished.toList)

/-- The call that finishes a pass after its walk, if it comes to that. -/
def Plugin.finishing? (p : Plugin) : Except Failure Walked × Module × p.Context → Option Event
  | (.error _, _) => none
  | (.ok _, m, context) =>
    some ⟨.finish, m, failure? (p.finish m context).1, (p.finish m context).2⟩

/-- The calls of a pass of a plugin whose walk may go as deep as `limit` says. -/
def Plugin.trace (p : Plugin) (limit : Store → Nat) (m : Module) : Trace :=
  match p.start m with
  | (.error e, draft) => ⟨⟨.start, m, some e, draft⟩, [], none⟩
  | (.ok context, draft) =>
    { started := ⟨.start, m, none, draft⟩
      calls := p.callsWithin (limit draft.tree) { m with toDraft := draft } context
      finished := p.finishing? (p.walkWithin (limit draft.tree) { m with toDraft := draft } context) }

namespace Plugin

open Call

variable {p : Plugin} {limit limit' : Store → Nat} {m : Module}

/-- A pass that does not start. -/
theorem trace_of_error {e : String} {draft : Draft} (limit : Store → Nat)
    (h : p.start m = (.error e, draft)) :
    p.trace limit m = ⟨⟨.start, m, some e, draft⟩, [], none⟩ ∧
      p.runWithin limit m = (.error (.hook e), { m with toDraft := draft }) := by
  rw [trace, runWithin, h]
  exact ⟨rfl, rfl⟩

theorem trace_of_start {context : p.Context} {draft : Draft} (h : p.start m = (.ok context, draft)) :
    p.trace limit m = ⟨⟨.start, m, none, draft⟩,
      p.callsWithin (limit draft.tree) { m with toDraft := draft } context,
      p.finishing? (p.walkWithin (limit draft.tree) { m with toDraft := draft } context)⟩ := by
  rw [trace, h]

/-- A pass whose walk does not come to its end. -/
theorem trace_of_walk_error {context : p.Context} {draft : Draft} {e : Failure} {m' : Module}
    {context' : p.Context} (h : p.start m = (.ok context, draft))
    (hwalk : p.walkWithin (limit draft.tree) { m with toDraft := draft } context
      = (.error e, m', context')) :
    p.trace limit m = ⟨⟨.start, m, none, draft⟩,
        p.callsWithin (limit draft.tree) { m with toDraft := draft } context, none⟩ ∧
      p.runWithin limit m = (.error e, m') := by
  rw [trace_of_start h, runWithin_of_start h, hwalk]
  exact ⟨rfl, rfl⟩

/-- A pass that comes to its finish. -/
theorem trace_of_walk {context : p.Context} {draft : Draft} {walked : Walked} {m' : Module}
    {context' : p.Context} (h : p.start m = (.ok context, draft))
    (hwalk : p.walkWithin (limit draft.tree) { m with toDraft := draft } context
      = (.ok walked, m', context')) :
    p.trace limit m = ⟨⟨.start, m, none, draft⟩,
        p.callsWithin (limit draft.tree) { m with toDraft := draft } context,
        some ⟨.finish, m', failure? (p.finish m' context').1, (p.finish m' context').2⟩⟩ ∧
      p.runWithin limit m = (((p.finish m' context').1.map fun _ => walked).mapError .hook,
        { m' with toDraft := (p.finish m' context').2 }) := by
  rw [trace_of_start h, runWithin_of_start h, hwalk, finishing?, finished]
  rcases p.finish m' context' with ⟨_ | _, draft'⟩ <;> exact ⟨rfl, rfl⟩

/-- A pass that does not go too deep is the same, call by call, if it may go deeper. -/
theorem trace_of_le (hlimit : ∀ tree, limit tree ≤ limit' tree)
    (h : (p.runWithin limit m).1 ≠ .error .tooDeep) :
    p.trace limit' m = p.trace limit m ∧ p.runWithin limit' m = p.runWithin limit m := by
  rcases hstart : p.start m with ⟨e | context, draft⟩
  · obtain ⟨htrace, hrun⟩ := trace_of_error limit hstart
    obtain ⟨htrace', hrun'⟩ := trace_of_error limit' hstart
    exact ⟨htrace'.trans htrace.symm, hrun'.trans hrun.symm⟩
  · have hwalk : (p.walkWithin (limit draft.tree) { m with toDraft := draft } context).1
        ≠ .error .tooDeep := by
      intro hdeep
      rcases hwalk : p.walkWithin (limit draft.tree) { m with toDraft := draft } context with
        ⟨r, m', context'⟩
      rw [hwalk] at hdeep
      obtain rfl : r = .error .tooDeep := hdeep
      exact h (congrArg Prod.fst (trace_of_walk_error hstart hwalk).2)
    have hle := hlimit draft.tree
    rw [trace_of_start hstart, trace_of_start hstart, runWithin_of_start hstart,
      runWithin_of_start hstart, callsWithin_of_le hle hwalk, walkWithin_of_le hle hwalk]
    exact ⟨rfl, rfl⟩

end Plugin

/-- How the calls of a run decide its outcome: a call that fails is the last one, and the run fails with
it. -/
def Settles {α : Type} (events : List Event) : Except Failure α → Prop
  | .ok _ | .error .tooDeep => ∀ e ∈ events, e.failure = none
  | .error (.hook message) =>
    ∃ front e, events = front ++ [e] ∧ e.failure = some message ∧ ∀ d ∈ front, d.failure = none

theorem Settles.prepend {α : Type} {front events : List Event} {r : Except Failure α}
    (h : Settles events r) (hfront : ∀ e ∈ front, e.failure = none) : Settles (front ++ events) r := by
  rcases r with (_ | _) | _
  · obtain ⟨front', e, rfl, he, hquiet⟩ := h
    exact ⟨front ++ front', e, by simp, he, List.forall_mem_append.mpr ⟨hfront, hquiet⟩⟩
  · exact List.forall_mem_append.mpr ⟨hfront, h⟩
  · exact List.forall_mem_append.mpr ⟨hfront, h⟩

namespace Call

variable {c : Call} {calls : List Call}

theorem failure?_of_ending? (h : c.ending? = none) : failure? c.reply = none := by
  rw [ending?] at h
  split at h
  · cases h
  · cases h
  · rename_i hreply
    rw [hreply]
    rfl

theorem Quiet.no_failure (h : Quiet calls) : ∀ e ∈ calls.map event, e.failure = none :=
  List.forall_mem_map.mpr fun c hc => failure?_of_ending? (h c hc)

/-- The calls of a walk decide its outcome. -/
theorem Ends.settles {o : Except Failure Signal} (h : Ends calls o) : Settles (calls.map event) o := by
  rcases h with ⟨hquiet, rfl | rfl⟩ | ⟨front, c, rfl, hquiet, hend⟩
  · exact hquiet.no_failure
  · exact hquiet.no_failure
  · rw [List.map_append]
    rcases ending?_eq_some hend with ⟨e, hreply, rfl⟩ | ⟨hreply, rfl⟩
    · exact ⟨front.map event, c.event, rfl, congrArg failure? hreply, hquiet.no_failure⟩
    · exact List.forall_mem_append.mpr
        ⟨hquiet.no_failure, List.forall_mem_singleton.mpr (congrArg failure? hreply)⟩

end Call

theorem Settles.map {α β : Type} {events : List Event} {r : Except Failure α} (h : Settles events r)
    (f : α → β) : Settles events (r.map f) := by
  rcases r with (_ | _) | _ <;> exact h

namespace Plugin

open Call

variable (p : Plugin) (limit : Store → Nat) (m : Module)

theorem settles_trace : Settles (p.trace limit m).events (p.runWithin limit m).1 := by
  rcases hstart : p.start m with ⟨e | context, draft⟩
  · obtain ⟨htrace, hrun⟩ := trace_of_error _ hstart
    rw [htrace, hrun]
    exact ⟨[], _, rfl, rfl, nofun⟩
  · obtain ⟨o, hvisits, hwalked, -, -⟩ :=
      p.walk_calls (limit draft.tree) { m with toDraft := draft } context
    have hcalls := hvisits.ends.settles.map fun signal =>
      (⟨(p.callsWithin (limit draft.tree) { m with toDraft := draft } context).countP
        (·.moment = .enter), signal = .stop⟩ : Walked)
    rw [← hwalked] at hcalls
    have hstarted : ∀ e ∈ [(⟨.start, m, none, draft⟩ : Event)], e.failure = none := by simp
    rcases hwalk : p.walkWithin (limit draft.tree) { m with toDraft := draft } context with
      ⟨e | walked, m', context'⟩
    · obtain ⟨htrace, hrun⟩ := trace_of_walk_error hstart hwalk
      rw [hwalk] at hcalls
      rw [htrace, hrun]
      simpa [Trace.events] using hcalls.prepend hstarted
    · obtain ⟨htrace, hrun⟩ := trace_of_walk hstart hwalk
      rw [hwalk] at hcalls
      rw [htrace, hrun]
      have hfinish : Settles [(⟨.finish, m', failure? (p.finish m' context').1,
            (p.finish m' context').2⟩ : Event)]
          (((p.finish m' context').1.map fun _ => walked).mapError .hook) := by
        rcases p.finish m' context' with ⟨e | _, draft'⟩
        · exact ⟨[], _, rfl, rfl, nofun⟩
        · exact List.forall_mem_singleton.mpr rfl
      simpa [Trace.events] using
        hfinish.prepend (List.forall_mem_append.mpr ⟨hstarted, hcalls⟩)

theorem threads_trace :
    Threads m.toDraft (p.trace limit m).events (p.runWithin limit m).2.toDraft := by
  rcases hstart : p.start m with ⟨e | context, draft⟩
  · obtain ⟨htrace, hrun⟩ := trace_of_error _ hstart
    rw [htrace, hrun]
    exact ⟨⟨rfl, rfl⟩, rfl, rfl⟩
  · obtain ⟨o, -, -, hthreads, -⟩ :=
      p.walk_calls (limit draft.tree) { m with toDraft := draft } context
    rcases hwalk : p.walkWithin (limit draft.tree) { m with toDraft := draft } context with
      ⟨e | walked, m', context'⟩
    · obtain ⟨htrace, hrun⟩ := trace_of_walk_error hstart hwalk
      rw [hwalk] at hthreads
      rw [htrace, hrun]
      exact ⟨⟨rfl, rfl⟩, by simpa using hthreads⟩
    · obtain ⟨htrace, hrun⟩ := trace_of_walk hstart hwalk
      rw [hwalk] at hthreads
      rw [htrace, hrun]
      exact ⟨⟨rfl, rfl⟩, hthreads.append ⟨⟨rfl, rfl⟩, rfl, rfl⟩⟩

end Plugin

open Call in
/-- The laws of a pass whose walk may go as deep as `limit` says. Its calls are of the plugin's own
hooks. -/
structure Trace.Lawful (p : Plugin) (limit : Store → Nat) (t : Trace) : Prop where
  start : t.started.hook = .start ∧ t.started.failure = failure? (p.start t.started.seen).1 ∧
    t.started.left = (p.start t.started.seen).2
  made : ∀ c ∈ t.calls, p.Makes c
  finish : ∀ e ∈ t.finished, e.hook = .finish ∧
    ∃ cx, e.failure = failure? (p.finish e.seen cx).1 ∧ e.left = (p.finish e.seen cx).2
  /-- The walk goes from the root to the children of each node, in their order, and comes back. It is cut
  off only if it goes too deep, and then the pass fails. -/
  visits : t.started.failure = none → ∃ o, Visits [t.started.left.tree.root] t.calls o ∧
    (o = .error .tooDeep → (p.runWithin limit t.started.seen).1 = .error .tooDeep)
  /-- No node is entered or left out of its place. -/
  placed : ∀ before c after, t.calls = before ++ c :: after →
    Placed [t.started.left.tree.root] [] before c after
  /-- Every node that was entered is left, unless a call ends the walk. -/
  closed : (p.runWithin limit t.started.seen).1 ≠ .error .tooDeep → (∀ c ∈ t.calls, c.ending? = none) →
    activePath t.calls = []
  /-- No node is entered or left once a hook has asked to stop, or failed. -/
  last : ∀ before c after, t.calls = before ++ c :: after → c.ending? ≠ none → after = []
  /-- The pass comes to its finish unless a hook fails before, also if one asks to stop. -/
  finished : (p.runWithin limit t.started.seen).1 ≠ .error .tooDeep →
    (t.finished.isSome = true ↔
      t.started.failure = none ∧ ∀ c ∈ t.calls, failure? c.reply = none)
  /-- What is reported of the walk. -/
  walked : ∀ walked, (p.runWithin limit t.started.seen).1 = .ok walked →
    walked.entered = t.calls.countP (·.moment = .enter) ∧
    (walked.stopped = true ↔ ∃ c ∈ t.calls, c.reply = .ok .stop)

namespace Call

variable {ns : List NodeId} {calls : List Call} {o : Except Failure Signal} {signal : Signal}

/-- A walk is stopped by one of its calls. -/
theorem Visits.stop_iff (h : Visits ns calls (.ok signal)) :
    signal = .stop ↔ ∃ c ∈ calls, c.reply = .ok .stop := by
  constructor
  · rintro rfl
    rcases h.ends with ⟨-, ho | ho⟩ | ⟨front, c, rfl, -, hend⟩
    · cases ho
    · cases ho
    · rcases ending?_eq_some hend with ⟨e, -, ho⟩ | ⟨hreply, -⟩
      · cases ho
      · exact ⟨c, by simp, hreply⟩
  · rintro ⟨c, hc, hreply⟩
    obtain ⟨before, after, rfl⟩ := List.append_of_mem hc
    have hend : c.ending? = some (.ok .stop) := by rw [ending?, hreply]
    cases (h.last rfl hend).2
    rfl

/-- A walk that does not go too deep fails if and only if one of its calls does. -/
theorem Visits.isOk_iff (h : Visits ns calls o) (ho : o ≠ .error .tooDeep) :
    (∃ signal, o = .ok signal) ↔ ∀ c ∈ calls, failure? c.reply = none := by
  have hsettles := h.ends.settles
  rcases o with (message | _) | signal
  · obtain ⟨front, e, hevents, he, -⟩ := hsettles
    have hmem : e ∈ calls.map event := by simp [hevents]
    obtain ⟨c, hc, rfl⟩ := List.mem_map.mp hmem
    refine ⟨nofun, fun hall => ?_⟩
    cases (hall c hc).symm.trans he
  · exact absurd rfl ho
  · exact ⟨fun _ => List.forall_mem_map.mp hsettles, fun _ => ⟨signal, rfl⟩⟩

/-- Every node that was entered is left if no call ends the walk. -/
theorem Visits.closed (h : Visits ns calls o) (ho : o ≠ .error .tooDeep) (hquiet : Quiet calls) :
    activePath calls = [] := by
  rcases h.ends with ⟨-, rfl | rfl⟩ | ⟨front, c, rfl, -, hend⟩
  · exact h.activePath_append rfl []
  · exact absurd rfl ho
  · cases (hquiet c (by simp)).symm.trans hend

end Call

open Call in
/-- The laws of a pass follow from the grammar of its walk. -/
theorem Trace.lawful_of_visits {p : Plugin} {limit : Store → Nat} {t : Trace}
    {o : Except Failure Signal}
    (hstart : t.started.hook = .start ∧ t.started.failure = failure? (p.start t.started.seen).1 ∧
      t.started.left = (p.start t.started.seen).2)
    (hstarted : t.started.failure = none) (hmade : ∀ c ∈ t.calls, p.Makes c)
    (hvisits : Visits [t.started.left.tree.root] t.calls o)
    (hfinish : ∀ e ∈ t.finished, e.hook = .finish ∧
      ∃ cx, e.failure = failure? (p.finish e.seen cx).1 ∧ e.left = (p.finish e.seen cx).2)
    (hfinished : t.finished.isSome = true ↔ ∃ signal, o = .ok signal)
    (hdeep : o = .error .tooDeep → (p.runWithin limit t.started.seen).1 = .error .tooDeep)
    (hwalked : ∀ walked, (p.runWithin limit t.started.seen).1 = .ok walked → ∃ signal, o = .ok signal ∧
      walked = ⟨t.calls.countP (·.moment = .enter), signal = .stop⟩) : t.Lawful p limit where
  start := hstart
  made := hmade
  finish := hfinish
  visits _ := ⟨o, hvisits, hdeep⟩
  placed before c after hsplit := by simpa using hvisits.placed [] [] before c after hsplit
  closed hne hquiet := hvisits.closed (fun ho => hne (hdeep ho)) hquiet
  last before c after hsplit hend := by
    obtain ⟨o', ho'⟩ := Option.ne_none_iff_exists'.mp hend
    exact (hvisits.last hsplit ho').1
  finished hne := by
    rw [hfinished, hvisits.isOk_iff fun ho => hne (hdeep ho)]
    exact ⟨fun h => ⟨hstarted, h⟩, fun h => h.2⟩
  walked walked hrun := by
    obtain ⟨signal, rfl, rfl⟩ := hwalked walked hrun
    exact ⟨rfl, by simpa using hvisits.stop_iff⟩

theorem Plugin.lawful_trace (p : Plugin) (limit : Store → Nat) (m : Module) :
    (p.trace limit m).Lawful p limit := by
  rcases hstart : p.start m with ⟨e | context, draft⟩
  · obtain ⟨htrace, hrun⟩ := trace_of_error _ hstart
    rw [htrace]
    refine ⟨⟨rfl, by rw [hstart]; rfl, by rw [hstart]⟩, nofun, nofun, nofun, ?_, fun _ _ => rfl, ?_,
      fun _ => by simp, ?_⟩
    · intro before c after hsplit
      simp at hsplit
    · intro before c after hsplit
      simp at hsplit
    · intro walked hwalked
      rw [hrun] at hwalked
      cases hwalked
  · obtain ⟨o, hvisits, hwalked, -, hmade⟩ :=
      p.walk_calls (limit draft.tree) { m with toDraft := draft } context
    have hbegin : Event.hook ⟨.start, m, none, draft⟩ = .start ∧
        (none : Option String) = failure? (p.start m).1 ∧ draft = (p.start m).2 := by
      rw [hstart]
      exact ⟨rfl, rfl, rfl⟩
    rcases hwalk : p.walkWithin (limit draft.tree) { m with toDraft := draft } context with
      ⟨e | walked, m', context'⟩
    · obtain ⟨htrace, hrun⟩ := trace_of_walk_error hstart hwalk
      rw [hwalk] at hwalked
      rcases o with e' | signal
      · cases hwalked
        rw [htrace]
        refine Trace.lawful_of_visits hbegin rfl hmade hvisits nofun (by simp) ?_ ?_
        · intro he
          cases he
          rw [hrun]
        · intro walked hok
          rw [hrun] at hok
          cases hok
      · cases hwalked
    · obtain ⟨htrace, hrun⟩ := trace_of_walk hstart hwalk
      rw [hwalk] at hwalked
      rcases o with e' | signal
      · cases hwalked
      · cases hwalked
        rw [htrace]
        refine Trace.lawful_of_visits hbegin rfl hmade hvisits ?_ (by simp) nofun ?_
        · rintro _ ⟨⟩
          exact ⟨rfl, context', rfl, rfl⟩
        · intro walked hok
          rw [hrun] at hok
          refine ⟨signal, rfl, ?_⟩
          rcases hfinish : (p.finish m' context').1 with e | _ <;> rw [hfinish] at hok <;> cases hok
          rfl

/-- The hook calls of the passes of the plugins, pass by pass; a pass that fails is the last one. -/
def Module.traces (m : Module) (limit : Store → Nat) : List Plugin → List Trace
  | [] => []
  | p :: ps =>
    p.trace limit { m with log := [] } :: match (p.toPassWithin limit).runLogged m with
      | (.error _, _) => []
      | (.ok (), m) => m.traces limit ps

/-- Runs the passes of plugins one after another, with a limit to how deep they may go. -/
def Module.runWithin (m : Module) (limit : Store → Nat) (ps : List Plugin) :
    Except Failure Unit × Module :=
  m.runAll (ps.map (·.toPassWithin limit))

/-- The laws of a run of the passes of the plugins `ps` over `m`. -/
structure Lifecycle (limit : Store → Nat) (ps : List Plugin) (m : Module) (traces : List Trace)
    (r : Except Failure Unit × Module) : Prop where
  /-- The passes are those of the first plugins, in their order. -/
  lawful : List.Forall₂ (fun p t => t.Lawful p limit) (ps.take traces.length) traces
  /-- If no hook fails then every pass is run and comes to its finish, whatever the hooks ask for. -/
  complete : (∀ e ∈ traces.flatMap Trace.events, e.failure = none) → r.1 ≠ .error .tooDeep →
    r.1 = .ok () ∧ traces.length = ps.length ∧ ∀ t ∈ traces, t.finished.isSome
  /-- No hook is called once one has failed, and the run fails with it. -/
  failed : ∀ before e after message, traces.flatMap Trace.events = before ++ e :: after →
    e.failure = some message → after = [] ∧ r.1 = .error (.hook message)
  /-- What the hooks changed stays as they left it, also in a run that fails. -/
  threads : Threads m.toDraft (traces.flatMap Trace.events) r.2.toDraft
  /-- A run that is not cut off is the same, call by call, if its walks may go deeper. -/
  deeper : r.1 ≠ .error .tooDeep → ∀ limit', (∀ tree, limit tree ≤ limit' tree) →
    m.traces limit' ps = traces ∧ m.runWithin limit' ps = r

/-- A call that fails is the last one of a run, which fails with it. -/
theorem Settles.last {α : Type} {before after : List Event} {e : Event} {message : String}
    {r : Except Failure α} (h : Settles (before ++ e :: after) r) (he : e.failure = some message) :
    after = [] ∧ r = .error (.hook message) := by
  have hloud : ¬ ∀ d ∈ before ++ e :: after, d.failure = none := fun hquiet => by
    cases (hquiet e (by simp)).symm.trans he
  rcases r with (message' | _) | _
  · obtain ⟨front, d, hsplit, hd, hquiet⟩ := h
    obtain ⟨rfl, rfl⟩ := last_of_quiet hquiet hsplit.symm (by simp [he])
    cases hd.symm.trans he
    exact ⟨rfl, rfl⟩
  · exact absurd h hloud
  · exact absurd h hloud

/-- A pass that succeeds comes to its finish. -/
theorem Plugin.finished_of_ok {p : Plugin} {limit : Store → Nat} {m : Module} {walked : Walked}
    (h : (p.runWithin limit m).1 = .ok walked) : (p.trace limit m).finished.isSome = true := by
  rcases hstart : p.start m with ⟨e | context, draft⟩
  · rw [(trace_of_error _ hstart).2] at h
    cases h
  · rcases hwalk : p.walkWithin (limit draft.tree) { m with toDraft := draft } context with
      ⟨e | walked, m', context'⟩
    · rw [(trace_of_walk_error hstart hwalk).2] at h
      cases h
    · rw [(trace_of_walk hstart hwalk).1]
      rfl

/-- A pass is a run of its plugin: logging aside, nothing else happens. -/
theorem Plugin.runLogged_toPass (p : Plugin) (limit : Store → Nat) (m : Module) :
    ((p.toPassWithin limit).runLogged m).1 = (p.runWithin limit { m with log := [] }).1.map (fun _ => ()) ∧
      (p.runWithin limit { m with log := [] }).2.toDraft.Same
        ((p.toPassWithin limit).runLogged m).2.toDraft := by
  rw [Pass.runLogged, Plugin.toPassWithin]
  dsimp only
  rcases p.runWithin limit { m with log := [] } with ⟨_ | _, m'⟩ <;> exact ⟨rfl, rfl, rfl⟩

theorem Plugin.runLogged_of_le {p : Plugin} {limit limit' : Store → Nat} {m : Module}
    (hlimit : ∀ tree, limit tree ≤ limit' tree)
    (h : ((p.toPassWithin limit).runLogged m).1 ≠ .error .tooDeep) :
    p.trace limit' { m with log := [] } = p.trace limit { m with log := [] } ∧
      (p.toPassWithin limit').runLogged m = (p.toPassWithin limit).runLogged m := by
  have hdeep : (p.runWithin limit { m with log := [] }).1 ≠ .error .tooDeep := by
    intro hrun
    rw [(p.runLogged_toPass limit m).1, hrun] at h
    exact h rfl
  obtain ⟨htrace, hrun⟩ := trace_of_le hlimit hdeep
  refine ⟨htrace, ?_⟩
  rw [Pass.runLogged, Pass.runLogged, toPassWithin, toPassWithin]
  dsimp only
  rw [hrun]
  rfl

namespace Module

variable {limit limit' : Store → Nat} {p : Plugin} {m m' : Module}

/-- A run that ends with its first pass. -/
theorem traces_cons_of_error {e : Failure} (ps : List Plugin)
    (h : (p.toPassWithin limit).runLogged m = (.error e, m')) :
    m.traces limit (p :: ps) = [p.trace limit { m with log := [] }] ∧
      m.runWithin limit (p :: ps) = (.error e, m') := by
  rw [traces, runWithin, List.map_cons, runAll, h]
  exact ⟨rfl, rfl⟩

/-- A run that goes on after its first pass. -/
theorem traces_cons_of_ok (ps : List Plugin) (h : (p.toPassWithin limit).runLogged m = (.ok (), m')) :
    m.traces limit (p :: ps) = p.trace limit { m with log := [] } :: m'.traces limit ps ∧
      m.runWithin limit (p :: ps) = m'.runWithin limit ps := by
  rw [traces, runWithin, runWithin, List.map_cons, runAll, h]
  exact ⟨rfl, rfl⟩

/-- A run that does not go too deep is the same, call by call, if its walks may go deeper. -/
theorem traces_of_le {ps : List Plugin} (hlimit : ∀ tree, limit tree ≤ limit' tree)
    (h : (m.runWithin limit ps).1 ≠ .error .tooDeep) :
    m.traces limit' ps = m.traces limit ps ∧ m.runWithin limit' ps = m.runWithin limit ps := by
  induction ps generalizing m with
  | nil => exact ⟨rfl, rfl⟩
  | cons p ps ih =>
    have hpass := Plugin.runLogged_of_le (p := p) (m := m) hlimit
    rcases hrun : (p.toPassWithin limit).runLogged m with ⟨e | _, m'⟩
    · obtain ⟨htraces, hall⟩ := traces_cons_of_error ps hrun
      rw [hall] at h
      rw [hrun] at hpass
      obtain ⟨htrace, hrun'⟩ := hpass h
      obtain ⟨htraces', hall'⟩ := traces_cons_of_error ps hrun'
      exact ⟨by rw [htraces', htraces, htrace], hall'.trans hall.symm⟩
    · obtain ⟨htraces, hall⟩ := traces_cons_of_ok ps hrun
      rw [hall] at h
      rw [hrun] at hpass
      obtain ⟨htrace, hrun'⟩ := hpass nofun
      obtain ⟨htraces', hall'⟩ := traces_cons_of_ok ps hrun'
      obtain ⟨hlater, hlast⟩ := ih h
      exact ⟨by rw [htraces', htraces, htrace, hlater], by rw [hall', hall, hlast]⟩

end Module

section Runs

variable (limit : Store → Nat) (m : Module) (ps : List Plugin)

/-- The calls of a run decide its outcome. -/
theorem settles_traces :
    Settles ((m.traces limit ps).flatMap Trace.events) (m.runWithin limit ps).1 := by
  induction ps generalizing m with
  | nil => exact nofun
  | cons p ps ih =>
    have htrace := (p.settles_trace limit { m with log := [] }).map fun _ => ()
    rw [← (p.runLogged_toPass limit m).1] at htrace
    rcases hrun : (p.toPassWithin limit).runLogged m with ⟨e | _, m'⟩
    · obtain ⟨htraces, hall⟩ := Module.traces_cons_of_error ps hrun
      rw [htraces, hall, List.flatMap_singleton]
      rwa [hrun] at htrace
    · obtain ⟨htraces, hall⟩ := Module.traces_cons_of_ok ps hrun
      rw [htraces, hall, List.flatMap_cons]
      rw [hrun] at htrace
      exact (ih m').prepend htrace

/-- The calls of a run make all its changes. -/
theorem threads_traces :
    Threads m.toDraft ((m.traces limit ps).flatMap Trace.events) (m.runWithin limit ps).2.toDraft := by
  induction ps generalizing m with
  | nil => exact ⟨rfl, rfl⟩
  | cons p ps ih =>
    have hsilent : m.toDraft.Same { m with log := [] }.toDraft := ⟨rfl, rfl⟩
    have htrace := (p.threads_trace limit { m with log := [] }).of_same hsilent
    have hsame := (p.runLogged_toPass limit m).2
    rcases hrun : (p.toPassWithin limit).runLogged m with ⟨e | _, m'⟩ <;> rw [hrun] at hsame
    · obtain ⟨htraces, hall⟩ := Module.traces_cons_of_error ps hrun
      rw [htraces, hall, List.flatMap_singleton]
      rw [← List.append_nil (p.trace limit _).events]
      exact htrace.append hsame
    · obtain ⟨htraces, hall⟩ := Module.traces_cons_of_ok ps hrun
      rw [htraces, hall, List.flatMap_cons]
      exact htrace.append ((ih m').of_same hsame)

theorem lawful_traces :
    List.Forall₂ (fun p t => t.Lawful p limit) (ps.take (m.traces limit ps).length)
      (m.traces limit ps) := by
  induction ps generalizing m with
  | nil => exact .nil
  | cons p ps ih =>
    have htrace := p.lawful_trace limit { m with log := [] }
    rcases hrun : (p.toPassWithin limit).runLogged m with ⟨e | _, m'⟩
    · rw [(Module.traces_cons_of_error ps hrun).1]
      exact .cons htrace .nil
    · rw [(Module.traces_cons_of_ok ps hrun).1]
      exact .cons htrace (ih m')

end Runs

/-- A run in which no pass fails has all of them, each with its finish. -/
theorem traces_of_ok {limit : Store → Nat} {m : Module} {ps : List Plugin}
    (h : (m.runWithin limit ps).1 = .ok ()) :
    (m.traces limit ps).length = ps.length ∧ ∀ t ∈ m.traces limit ps, t.finished.isSome := by
  induction ps generalizing m with
  | nil => exact ⟨rfl, nofun⟩
  | cons p ps ih =>
    have houtcome := (p.runLogged_toPass limit m).1
    rcases hrun : (p.toPassWithin limit).runLogged m with ⟨e | _, m'⟩
    · rw [(Module.traces_cons_of_error ps hrun).2] at h
      cases h
    · obtain ⟨htraces, hall⟩ := Module.traces_cons_of_ok ps hrun
      rw [hall] at h
      obtain ⟨hlength, hfinished⟩ := ih h
      rw [htraces, List.length_cons, List.length_cons, hlength]
      refine ⟨rfl, List.forall_mem_cons.mpr ⟨?_, hfinished⟩⟩
      rw [hrun] at houtcome
      rcases hran : (p.runWithin limit { m with log := [] }).1 with e | walked
      · rw [hran] at houtcome
        cases houtcome
      · exact Plugin.finished_of_ok hran

/-- Passes over a module call hooks by the laws, whatever the hooks do and however deep walks may go. -/
theorem runAll_lifecycle (limit : Store → Nat) (m : Module) (ps : List Plugin) :
    Lifecycle limit ps m (m.traces limit ps) (m.runAll (ps.map (·.toPassWithin limit))) where
  lawful := lawful_traces limit m ps
  complete hquiet hdeep := by
    have hsettles := settles_traces limit m ps
    have hok : (m.runWithin limit ps).1 = .ok () := by
      rcases hr : (m.runWithin limit ps).1 with (message | _) | _
      · rw [hr] at hsettles
        obtain ⟨front, e, hevents, he, -⟩ := hsettles
        cases (hquiet e (by simp [hevents])).symm.trans he
      · exact absurd hr hdeep
      · rfl
    exact ⟨hok, traces_of_ok hok⟩
  failed before e after message hsplit he := Settles.last (hsplit ▸ settles_traces limit m ps) he
  threads := threads_traces limit m ps
  deeper hdeep _ hlimit := Module.traces_of_le hlimit hdeep

end Downlevel
