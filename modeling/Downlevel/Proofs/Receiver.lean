import Downlevel.Proofs.Shape

/-!
# What `this` refers to

The receiver of a `this` is the nearest function around it, or else the program (`Store.receiver`). Two
sorts of functions do not count, because they pass on the `this` around them: arrow functions, and
functions that occur as `f.bind(this)`. The pass that lowers arrow functions leaves every `this` of a
tree where the root leads to it, with the receiver that it had (`arrows_keep_receivers`).
-/

namespace Downlevel

open Downlevel.Tree

namespace Store

variable {s s' : Store} {id parent : NodeId} {above above' : List NodeId}

/-- Whether the nearest of the nodes above a node calls it with `this` as the only argument. -/
def calledWithThis (s : Store) (id : NodeId) : List NodeId → Bool
  | [] => false
  | parent :: _ =>
    match s.kind parent with
    | .call callee [argument] => callee = id && s.kind argument = .this
    | _ => false

/-- Whether a node occurs as `f.bind(this)`, given the nodes above it. -/
def boundToThis (s : Store) (id : NodeId) : List NodeId → Bool
  | [] => false
  | parent :: above => s.kind parent = .member id "bind" && s.calledWithThis parent above

/-- What `this` refers to below these nodes, of which the nearest comes first. -/
def receiver (s : Store) : List NodeId → Option NodeId
  | [] => none
  | id :: above =>
    match s.kind id with
    | .program _ | .functionDeclaration .. => some id
    | .functionExpression .. => if s.boundToThis id above then s.receiver above else some id
    | _ => s.receiver above

/-- The nodes above a node, nearest first, on a way to it from the root. -/
inductive Above (s : Store) : NodeId → List NodeId → Prop
  | root : s.Above s.root []
  | child {id parent : NodeId} {above : List NodeId} (h : s.Above parent above)
    (hchild : id ∈ s.children parent) : s.Above id (parent :: above)

/-- What a `this` refers to, given by the only way to it from the root. -/
def HasReceiver (s : Store) (id : NodeId) (receiver : Option NodeId) : Prop :=
  ∃ above, (∀ path, s.Above id path ↔ path = above) ∧ s.receiver above = receiver

/-- Below a program every way up comes to a receiver. -/
theorem isSome_receiver {body : List NodeId} (hroot : s.kind s.root = .program body)
    (h : s.Above id above) (hne : above ≠ []) : (s.receiver above).isSome = true := by
  induction h with
  | root => exact absurd rfl hne
  | @child id parent above h hchild ih =>
    rw [receiver]
    split
    · rfl
    · rfl
    · split
      · rename_i hbound
        refine ih ?_
        rintro rfl
        cases hbound
      · rfl
    · rename_i hprogram _ _
      refine ih ?_
      rintro rfl
      cases h
      exact hprogram body hroot

end Store

/-! ## Nodes and the nodes above them -/

theorem Owns.child {nodes : Array Node} {a : Label} {k : Kind (Tree Label)}
    (h : Owns nodes (node a k).cells) {c : Tree Label} (hc : c ∈ k.children) : Owns nodes c.cells := by
  rw [cells_node] at h
  exact h.mono ((cells_le_forest hc).trans (Multiset.le_cons_self _ _))

namespace Tree

variable {s : Store} {a : Label} {k : Kind (Tree Label)} {t : Tree Label} {id parent : NodeId}
  {above path : List NodeId}

/-- The nodes of a tree, each with the nodes above it. -/
def sites : Tree Label → List NodeId → List (NodeId × List NodeId) :=
  fold fun a k above => (a.1, above) :: k.children.flatMap (· (a.1 :: above))

theorem mem_sites_node : (id, path) ∈ (node a k).sites above ↔
    id = a.1 ∧ path = above ∨ ∃ c ∈ k.children, (id, path) ∈ c.sites (a.1 :: above) := by
  simp [sites, List.mem_flatMap]

theorem map_fst_sites (t : Tree Label) (above : List NodeId) :
    ((t.sites above).map Prod.fst : Multiset NodeId) = t.cells.map Prod.fst := by
  induction t using induction_on generalizing above with
  | node a k ih =>
    have hforest : ∀ ts : List (Tree Label), (∀ c ∈ ts, c ∈ k.children) →
        (((ts.flatMap fun c => c.sites (a.1 :: above)).map Prod.fst : List NodeId) : Multiset NodeId)
          = (forest ts).map Prod.fst := by
      intro ts hts
      induction ts with
      | nil => rfl
      | cons c ts ihts =>
        rw [List.forall_mem_cons] at hts
        rw [List.flatMap_cons, List.map_append, ← Multiset.coe_add, ih c hts.1, ihts hts.2, forest_cons,
          Multiset.map_add]
    have hsites : (node a k).sites above
        = (a.1, above) :: k.children.flatMap fun c => c.sites (a.1 :: above) := by
      simp [sites, List.flatMap_map]
    rw [hsites, List.map_cons, ← Multiset.cons_coe, hforest _ fun _ hc => hc, cells_node,
      Multiset.map_cons]
    rfl

theorem number_mem_sites (t : Tree Label) (above : List NodeId) : (t.number, above) ∈ t.sites above := by
  obtain ⟨a, k⟩ := t
  exact mem_sites_node.mpr (.inl ⟨rfl, rfl⟩)

/-- Below a node of a tree come its children. -/
theorem mem_sites_child (howns : Owns s.nodes t.cells) (h : (parent, path) ∈ t.sites above)
    (hchild : id ∈ s.children parent) : (id, parent :: path) ∈ t.sites above := by
  induction t using induction_on generalizing above with
  | node a k ih =>
    refine mem_sites_node.mpr (.inr ?_)
    rcases mem_sites_node.mp h with ⟨rfl, rfl⟩ | ⟨c, hc, h⟩
    · have hkind : s.kind a.1 = k.map number := Store.kind_eq_of_owns howns
      rw [Store.children, hkind, Kind.children_map] at hchild
      obtain ⟨c, hc, rfl⟩ := List.mem_map.mp hchild
      exact ⟨c, hc, c.number_mem_sites _⟩
    · exact ⟨c, hc, ih c hc (howns.child hc) h⟩

theorem above_of_mem_sites (howns : Owns s.nodes t.cells) (habove : s.Above t.number above)
    (h : (id, path) ∈ t.sites above) : s.Above id path := by
  induction t using induction_on generalizing above with
  | node a k ih =>
    rcases mem_sites_node.mp h with ⟨rfl, rfl⟩ | ⟨c, hc, h⟩
    · exact habove
    · have hkind : s.kind a.1 = k.map number := Store.kind_eq_of_owns howns
      refine ih c hc (howns.child hc) (habove.child ?_) h
      rw [Store.children, number_node, hkind, Kind.children_map]
      exact List.mem_map_of_mem hc

end Tree

namespace Store

variable {s : Store} {t : Tree Label} {id : NodeId} {above path : List NodeId}

/-- The ways from the root are those down the tree. -/
theorem Holds.above_iff (h : s.Holds t) : s.Above id path ↔ (id, path) ∈ t.sites [] := by
  constructor
  · intro habove
    induction habove with
    | root =>
      rw [← h.1]
      exact t.number_mem_sites []
    | child _ hchild ih => exact mem_sites_child h.2 ih hchild
  · refine above_of_mem_sites h.2 ?_
    rw [h.1]
    exact .root

/-- There is one way to a node of a tree. -/
theorem Holds.above_unique (h : s.Holds t) (hpath : (id, path) ∈ t.sites []) :
    s.Above id above ↔ above = path := by
  rw [h.above_iff]
  refine ⟨fun habove => ?_, fun heq => heq ▸ hpath⟩
  have hnodup : ((t.sites []).map Prod.fst).Nodup := by
    rw [← Multiset.coe_nodup, t.map_fst_sites]
    exact h.2.nodup
  exact congrArg Prod.snd (List.inj_on_of_nodup_map hnodup habove hpath rfl)

theorem Holds.mem_reachable (h : s.Holds t) : id ∈ s.reachable ↔ ∃ path, (id, path) ∈ t.sites [] := by
  rw [← Multiset.mem_coe, h.coe_reachable, ← t.map_fst_sites [], Multiset.mem_coe, List.mem_map]
  constructor
  · rintro ⟨⟨_, path⟩, hpath, rfl⟩
    exact ⟨path, hpath⟩
  · rintro ⟨path, hpath⟩
    exact ⟨_, hpath, rfl⟩

end Store

/-! ## Receivers in a lowered tree -/

/-- Only an arrow function becomes something else. -/
theorem Unarrows.eq_of_not_arrow {a : Label} {bound : Bool} {k k' : Kind (Tree Label)}
    (h : Unarrows a bound k k') (hk : ∀ params body, k ≠ .arrowFunction params body) : k' = k := by
  cases h with
  | function | bind => exact absurd rfl (hk _ _)
  | other => rfl

theorem Kind.map_ne_arrowFunction {α β : Type} {f : α → β} {k : Kind α}
    (hk : ∀ params body, k ≠ .arrowFunction params body) (params : List β) (body : β) :
    k.map f ≠ .arrowFunction params body := by
  cases k with
  | arrowFunction params body => exact absurd rfl (hk params body)
  | _ => nofun

theorem ArrowsLowered.kind_eq_this {t t' : Tree Label} (h : ArrowsLowered t t') :
    t'.kind = .this ↔ t.kind = .this := by
  obtain ⟨f, -, -, unarrows⟩ := h
  rename_i a k k'
  by_cases hk : ∃ params body, k = .arrowFunction params body
  · obtain ⟨params, body, rfl⟩ := hk
    cases unarrows with
    | function | bind => exact ⟨nofun, nofun⟩
    | other h => exact absurd rfl (h _ _)
  · simp only [not_exists] at hk
    rw [unarrows.eq_of_not_arrow (Kind.map_ne_arrowFunction hk)]
    cases k <;> simp [Kind.map]

/-- None of the nodes is an arrow function. -/
def Unarrowed (cells : Multiset Cell) : Prop :=
  ∀ c ∈ cells, ∀ params body, c.2.kind ≠ .arrowFunction params body

@[simp] theorem unarrowed_zero : Unarrowed 0 := by simp [Unarrowed]

@[simp] theorem unarrowed_add {cells cells' : Multiset Cell} :
    Unarrowed (cells + cells') ↔ Unarrowed cells ∧ Unarrowed cells' := by
  simp only [Unarrowed, Multiset.mem_add, or_imp, forall_and]

theorem unarrowed_forest {ts : List (Tree Label)} : Unarrowed (forest ts) ↔ ∀ t ∈ ts, Unarrowed t.cells := by
  simp only [Unarrowed, mem_forest]
  exact ⟨fun h t ht c hc => h c ⟨t, ht, hc⟩, fun h c ⟨t, ht, hc⟩ => h t ht c hc⟩

@[simp] theorem unarrowed_cons {a : Label} {k : Kind (Tree Label)} {cells : Multiset Cell} :
    Unarrowed (cell a k ::ₘ cells) ↔ (∀ params body, k ≠ .arrowFunction params body) ∧ Unarrowed cells := by
  rw [Unarrowed, Multiset.forall_mem_cons]
  refine and_congr_left fun _ => ⟨?_, Kind.map_ne_arrowFunction⟩
  rintro h params body rfl
  exact h _ _ rfl

theorem Encloses.unarrowed {body block : Tree Label} (h : Encloses body block) (hbody : Unarrowed body.cells) :
    Unarrowed block.cells := by
  cases h with
  | self => exact hbody
  | new => simpa [Kind.children] using hbody

theorem ArrowsLowered.unarrowed {t t' : Tree Label} (h : ArrowsLowered t t') : Unarrowed t'.cells := by
  induction h with
  | @node a k k' f children ann unarrows ih =>
    have hparts : Unarrowed (forest (k.map f).children) := by
      rw [Kind.children_map, unarrowed_forest, List.forall_mem_map]
      exact ih
    generalize k.map f = l at unarrows hparts
    cases unarrows with
    | function hbound hencloses | bind hbound hencloses =>
      simp only [Kind.children, forest_append, forest_cons, forest_nil, add_zero, unarrowed_add] at hparts
      have hblock := hencloses.unarrowed hparts.2
      simp [Kind.children, -Multiset.cons_zero, hparts.1, hblock]
    | other h =>
      rw [cells_node, unarrowed_cons]
      exact ⟨h, hparts⟩

section Lowered

variable {s s' : Store} {a : Label} {k : Kind (Tree Label)} {t t' : Tree Label}
  {above above' path : List NodeId} {id : NodeId}

theorem kind_number_eq_this (h : Owns s.nodes t.cells) : s.kind t.number = .this ↔ t.kind = .this := by
  rw [Store.kind_eq_of_owns h]
  cases t.kind <;> simp [Kind.map]

/-- What is used below a node that is no function is used there. -/
theorem usesThis_of_child (hk : k.isFunction = false) {c : Tree Label} (hc : c ∈ k.children)
    (h : c.plain.usesThis = true) : (node a k).plain.usesThis = true := by
  have hany : (k.map fun c => c.plain.usesThis).children.any id = true := by
    rw [Kind.children_map, List.any_map]
    exact List.any_eq_true.mpr ⟨c, hc, h⟩
  rw [plain_node, usesThis_node, Kind.map_map]
  cases k with
  | functionDeclaration | functionExpression | arrowFunction => cases hk
  | this => rfl
  | _ => exact hany

/-- What a subtree finds above it before and after arrow functions are lowered. The receiver may only
be another where no `this` asks for it: none in the subtree, and none that the subtree is bound to. -/
structure SameAbove (s s' : Store) (t : Tree Label) (above above' : List NodeId) : Prop where
  called : s'.calledWithThis t.number above' = s.calledWithThis t.number above
  bound : s'.boundToThis t.number above' = s.boundToThis t.number above
  receiver : t.plain.usesThis = true ∨ s.calledWithThis t.number above = true ∨
    s.boundToThis t.number above = true → s'.receiver above' = s.receiver above

/-- A node that stays what it is looks the same from below. -/
theorem SameAbove.child {f : Tree Label → Tree Label} (h : SameAbove s s' (node a k) above above')
    (hs : Owns s.nodes (node a k).cells) (hs' : Owns s'.nodes (node a (k.map f)).cells)
    (hk : ∀ params body, k ≠ .arrowFunction params body) (hann : ∀ c ∈ k.children, (f c).ann = c.ann)
    (hthis : ∀ c ∈ k.children, (f c).kind = .this ↔ c.kind = .this) {c : Tree Label}
    (hc : c ∈ k.children) : SameAbove s s' c (a.1 :: above) (a.1 :: above') := by
  have hkind : s.kind a.1 = k.map number := Store.kind_eq_of_owns hs
  have hkind' : s'.kind a.1 = k.map number := by
    have hnumbers : (k.map f).map number = k.map number := by
      rw [Kind.map_map]
      exact Kind.map_congr fun c hc => congrArg Prod.fst (hann c hc)
    exact (Store.kind_eq_of_owns hs').trans hnumbers
  have hargument : ∀ d ∈ k.children, s'.kind d.number = .this ↔ s.kind d.number = .this := by
    intro d hd
    have hmem : f d ∈ (k.map f).children := by
      rw [Kind.children_map]
      exact List.mem_map_of_mem hd
    have hnumber : (f d).number = d.number := congrArg Prod.fst (hann d hd)
    rw [← hnumber, kind_number_eq_this (hs'.child hmem), hnumber, kind_number_eq_this (hs.child hd),
      hthis d hd]
  -- who calls a child with `this` uses it
  have huses (h : s.calledWithThis c.number (a.1 :: above) = true) : ∃ d ∈ k.children,
      d.plain.usesThis = true := by
    rw [Store.calledWithThis, hkind] at h
    split at h
    · rename_i callee argument heq
      cases k with
      | call callee' arguments =>
        simp only [Kind.map, Kind.call.injEq, List.map_eq_singleton_iff] at heq
        obtain ⟨-, d, rfl, rfl⟩ := heq
        have hmem : d ∈ (Kind.call callee' [d]).children := by simp [Kind.children]
        simp only [Bool.and_eq_true, decide_eq_true_eq] at h
        refine ⟨d, hmem, ?_⟩
        obtain ⟨b, l⟩ := d
        obtain rfl : l = .this := (kind_number_eq_this (hs.child hmem)).mp h.2
        rfl
      | _ => cases heq
    · cases h
  refine ⟨?_, ?_, fun huse => ?_⟩
  · rw [Store.calledWithThis, Store.calledWithThis, hkind, hkind']
    split
    · rename_i callee argument heq
      cases k with
      | call callee' arguments =>
        simp only [Kind.map, Kind.call.injEq, List.map_eq_singleton_iff] at heq
        obtain ⟨-, d, rfl, rfl⟩ := heq
        rw [decide_eq_decide.mpr (hargument d (by simp [Kind.children]))]
      | _ => cases heq
    · rfl
  · rw [Store.boundToThis, Store.boundToThis, hkind, hkind']
    exact congrArg _ h.called
  · rw [Store.receiver, Store.receiver, hkind, hkind']
    -- a node that is no function passes on what is asked for
    have hup (hfunction : k.isFunction = false) : s'.receiver above' = s.receiver above := by
      refine h.receiver ?_
      rcases huse with huse | huse | huse
      · exact .inl (usesThis_of_child hfunction hc huse)
      · obtain ⟨d, hd, huse⟩ := huses huse
        exact .inl (usesThis_of_child hfunction hd huse)
      · rw [Store.boundToThis, Bool.and_eq_true] at huse
        exact .inr (.inl huse.2)
    cases k with
    | program | functionDeclaration => rfl
    | functionExpression =>
      have hbound := h.bound
      rw [number_node] at hbound
      simp only [Kind.map, hbound]
      split
      · rename_i hbound
        exact h.receiver (.inr (.inr hbound))
      · rfl
    | arrowFunction => exact absurd rfl (hk _ _)
    | _ => exact hup rfl

/-- Where the parts of an arrow function go: somewhere below the function that takes its place, with the
same receiver as any part of that function. -/
theorem exists_sites_function {f : Tree Label → Tree Label} {params : List (Tree Label)}
    {body block : Tree Label} (hencloses : Encloses (f body) block)
    (hs' : Owns s'.nodes (node a (.functionExpression none (params.map f) block)).cells)
    {c : Tree Label} (hc : c ∈ params ++ [body]) :
    ∃ path, (∀ site ∈ (f c).sites path,
        site ∈ (node a (.functionExpression none (params.map f) block)).sites above') ∧
      Owns s'.nodes (f c).cells ∧ s'.calledWithThis c.number path = false ∧
      s'.boundToThis c.number path = false ∧ s'.receiver path = s'.receiver (a.1 :: above') := by
  have hkind : s'.kind a.1 = .functionExpression none ((params.map f).map number) block.number :=
    Store.kind_eq_of_owns hs'
  have hpart {d : Tree Label} (hd : d ∈ params.map f ++ [block]) : ∀ site ∈ d.sites (a.1 :: above'),
      site ∈ (node a (.functionExpression none (params.map f) block)).sites above' :=
    fun _ hsite => mem_sites_node.mpr (.inr ⟨d, hd, hsite⟩)
  rcases List.mem_append.mp hc with hc | hc
  · have hmem : f c ∈ params.map f ++ [block] := List.mem_append_left _ (List.mem_map_of_mem hc)
    exact ⟨_, hpart hmem, hs'.child hmem, by simp [Store.calledWithThis, hkind],
      by simp [Store.boundToThis, hkind], rfl⟩
  · obtain rfl : c = body := List.mem_singleton.mp hc
    have hmem : block ∈ params.map f ++ [block] := List.mem_append_right _ (List.mem_singleton_self _)
    have hblock := hs'.child hmem
    cases hencloses with
    | self => exact ⟨_, hpart hmem, hblock, by simp [Store.calledWithThis, hkind],
        by simp [Store.boundToThis, hkind], rfl⟩
    | new hbody number result =>
      have hreturn := hblock.child (List.mem_singleton_self _)
      have hkindBlock : s'.kind number = .block [result] := Store.kind_eq_of_owns hblock
      have hkindReturn : s'.kind result = .returnStatement (some (f c).number) :=
        Store.kind_eq_of_owns hreturn
      refine ⟨result :: number :: a.1 :: above', fun site hsite => hpart hmem site ?_,
        hreturn.child (List.mem_singleton_self _), by simp [Store.calledWithThis, hkindReturn],
        by simp [Store.boundToThis, hkindReturn], ?_⟩
      · exact mem_sites_node.mpr (.inr ⟨_, List.mem_singleton_self _,
          mem_sites_node.mpr (.inr ⟨f c, List.mem_singleton_self _, hsite⟩)⟩)
      · rw [Store.receiver, hkindReturn, Store.receiver, hkindBlock]

/-- Where the parts of an arrow function go, whether or not the function is bound: their receiver stays,
as far as they use it. -/
theorem SameAbove.exists_sites {f : Tree Label → Tree Label} {params : List (Tree Label)}
    {body : Tree Label} {k' : Kind (Tree Label)}
    (h : SameAbove s s' (node a (.arrowFunction params body)) above above')
    (hs : Owns s.nodes (node a (.arrowFunction params body)).cells) (hs' : Owns s'.nodes (node a k').cells)
    (hunarrows : Unarrows a ((params ++ [body]).any (·.plain.usesThis))
      (.arrowFunction (params.map f) (f body)) k')
    {c : Tree Label} (hc : c ∈ params ++ [body]) :
    ∃ path, (∀ site ∈ (f c).sites path, site ∈ (node a k').sites above') ∧ Owns s'.nodes (f c).cells ∧
      SameAbove s s' c (a.1 :: above) path := by
  have hkind : s.kind a.1 = .arrowFunction (params.map number) body.number := Store.kind_eq_of_owns hs
  have hcalled : s.calledWithThis c.number (a.1 :: above) = false := by
    simp [Store.calledWithThis, hkind]
  have hbound : s.boundToThis c.number (a.1 :: above) = false := by simp [Store.boundToThis, hkind]
  have hreceiver : s.receiver (a.1 :: above) = s.receiver above := by rw [Store.receiver, hkind]
  cases hunarrows with
  | function huses hencloses =>
    obtain ⟨path, hsites, howns, hcalled', hbound', -⟩ := exists_sites_function hencloses hs' hc
    refine ⟨path, hsites, howns, by rw [hcalled', hcalled], by rw [hbound', hbound], ?_⟩
    -- no part uses `this`
    simp only [hcalled, hbound, Bool.false_eq_true, or_false]
    intro huse
    exact absurd huse (List.any_eq_false.mp huses c hc)
  | bind huses hencloses function callee this =>
    have hcallee := hs'.child List.mem_cons_self
    have hfunction := hcallee.child (List.mem_singleton_self _)
    have hthis := hs'.child (List.mem_cons_of_mem _ (List.mem_singleton_self _))
    obtain ⟨path, hsites, howns, hcalled', hbound', hreceiver'⟩ :=
      exists_sites_function hencloses hfunction hc
    refine ⟨path, fun site hsite => ?_, howns, by rw [hcalled', hcalled], by rw [hbound', hbound], ?_⟩
    · exact mem_sites_node.mpr (.inr ⟨_, List.mem_cons_self,
        mem_sites_node.mpr (.inr ⟨_, List.mem_singleton_self _, hsites site hsite⟩)⟩)
    · intro _
      have hkindCall : s'.kind a.1 = .call callee [this] := Store.kind_eq_of_owns hs'
      have hkindCallee : s'.kind callee = .member function "bind" := Store.kind_eq_of_owns hcallee
      have hkindThis : s'.kind this = .this := Store.kind_eq_of_owns hthis
      have hkindFunction := Store.kind_eq_of_owns hfunction
      have hpassed : s'.receiver (function :: callee :: a.1 :: above') = s'.receiver above' := by
        have hboundFunction : s'.boundToThis function (callee :: a.1 :: above') = true := by
          simp [Store.boundToThis, Store.calledWithThis, hkindCall, hkindCallee, hkindThis]
        rw [number_node] at hkindFunction
        simp [Store.receiver, hkindFunction, Kind.map, hboundFunction, hkindCallee, hkindCall]
      have huse : (node a (.arrowFunction params body)).plain.usesThis = true := by
        simpa [thisUsed, Kind.map, Kind.children] using huses
      rw [hreceiver', hpassed, hreceiver, h.receiver (.inl huse)]
  | other h => exact absurd rfl (h _ _)

/-- Every `this` below a tree stays there, with its receiver. -/
theorem ArrowsLowered.exists_site (h : ArrowsLowered t t') (hs : Owns s.nodes t.cells)
    (hs' : Owns s'.nodes t'.cells) (habove : SameAbove s s' t above above')
    (hsite : (id, path) ∈ t.sites above) (hthis : s.kind id = .this) :
    ∃ path', (id, path') ∈ t'.sites above' ∧ s'.kind id = .this ∧
      s'.receiver path' = s.receiver path := by
  induction h generalizing above above' with
  | @node a k k' f children ann unarrows ih =>
    by_cases hk : ∃ params body, k = .arrowFunction params body
    · obtain ⟨params, body, rfl⟩ := hk
      rcases mem_sites_node.mp hsite with ⟨rfl, rfl⟩ | ⟨c, hc, hsite⟩
      · cases (kind_number_eq_this hs).mp hthis
      · obtain ⟨above'', hsites, howns, hc'⟩ := habove.exists_sites hs hs' unarrows hc
        obtain ⟨path', hsite', hkept⟩ := ih c hc (hs.child hc) howns hc' hsite
        exact ⟨path', hsites _ hsite', hkept⟩
    · simp only [not_exists] at hk
      obtain rfl := unarrows.eq_of_not_arrow (Kind.map_ne_arrowFunction hk)
      rcases mem_sites_node.mp hsite with ⟨rfl, rfl⟩ | ⟨c, hc, hsite⟩
      · obtain rfl : k = .this := (kind_number_eq_this hs).mp hthis
        exact ⟨above', number_mem_sites _ _, Store.kind_eq_of_owns hs', habove.receiver (.inl rfl)⟩
      · have hmem : f c ∈ (k.map f).children := by
          rw [Kind.children_map]
          exact List.mem_map_of_mem hc
        have hc' := habove.child hs hs' hk ann (fun d hd => (children d hd).kind_eq_this) hc
        obtain ⟨path', hsite', hkept⟩ := ih c hc (hs.child hc) (hs'.child hmem) hc' hsite
        exact ⟨path', mem_sites_node.mpr (.inr ⟨f c, hmem, hsite'⟩), hkept⟩

end Lowered

theorem Store.Holds.ne_arrowFunction {s : Store} {t : Tree Label} (h : s.Holds t) (ht : Unarrowed t.cells)
    {id : NodeId} (hid : id ∈ s.reachable) (params : List NodeId) (body : NodeId) :
    s.kind id ≠ .arrowFunction params body := by
  rw [← Multiset.mem_coe, h.coe_reachable] at hid
  obtain ⟨c, hc, rfl⟩ := Multiset.mem_map.mp hid
  rw [show s.kind c.1 = c.2.kind from congrArg Node.kind (node_eq h.2 hc)]
  exact ht c hc params body

/-- Lowering arrow functions leaves none of them, and every `this` refers to what it referred to. -/
theorem arrows_keep_receivers (m : Module) (h : m.tree.Shaped) :
    ∃ walked m', Lowering.arrows.run m = (.ok walked, m') ∧
      (∀ id ∈ m'.tree.reachable, ∀ params body, m'.tree.kind id ≠ .arrowFunction params body) ∧
      ∀ id ∈ m.tree.reachable, m.tree.kind id = .this →
        id ∈ m'.tree.reachable ∧ m'.tree.kind id = .this ∧
        ∃ receiver, m.tree.HasReceiver id receiver ∧ m'.tree.HasReceiver id receiver ∧
          ∀ body, m.tree.kind m.tree.root = .program body → receiver.isSome = true := by
  obtain ⟨t, ht, -⟩ := h.exists_holds
  obtain ⟨walked, m', t', hrun, ht', hlowered, -⟩ := run_arrows ht
  refine ⟨walked, m', hrun, fun id => ht'.ne_arrowFunction hlowered.unarrowed, ?_⟩
  intro id hid hthis
  obtain ⟨above, hsite⟩ := ht.mem_reachable.mp hid
  have hroot : SameAbove m.tree m'.tree t [] [] := ⟨rfl, rfl, fun _ => rfl⟩
  obtain ⟨above', hsite', hthis', hreceiver⟩ := hlowered.exists_site ht.2 ht'.2 hroot hsite hthis
  refine ⟨ht'.mem_reachable.mpr ⟨above', hsite'⟩, hthis', m.tree.receiver above,
    ⟨above, fun _ => ht.above_unique hsite, rfl⟩, ⟨above', fun _ => ht'.above_unique hsite', hreceiver⟩,
    fun body hroot => ?_⟩
  have habove := ht.above_iff.mpr hsite
  refine Store.isSome_receiver hroot habove ?_
  rintro rfl
  cases habove
  rw [hroot] at hthis
  cases hthis

/-- The tree of `f = (x = this) => () => this;`. -/
def nestedArrows : Store where
  nodes := #[.program [8], .identifier "f", .this, .param "x" (some 2) false, .this, .arrowFunction [] 4,
    .arrowFunction [3] 5, .assign 1 6, .expressionStatement 7].map (⟨·, {}⟩)
  root := 0

theorem arrows_keep_receivers_nestedArrows :
    nestedArrows.Shaped ∧ ∃ walked m',
      Lowering.arrows.run (.ofTree "" nestedArrows) = (.ok walked, m') ∧
      (∀ id ∈ m'.tree.reachable, ∀ params body, m'.tree.kind id ≠ .arrowFunction params body) ∧
      ∀ id ∈ [2, 4], id ∈ m'.tree.reachable ∧ m'.tree.HasReceiver id (some 0) := by
  have hshaped : nestedArrows.Shaped := ⟨by decide +kernel, by decide +kernel, by decide +kernel⟩
  obtain ⟨walked, m', hrun, hnone, hkept⟩ := arrows_keep_receivers (.ofTree "" nestedArrows) hshaped
  refine ⟨hshaped, walked, m', hrun, hnone, fun id hid => ?_⟩
  have hthis : ∀ id ∈ [2, 4], id ∈ nestedArrows.reachable ∧ nestedArrows.kind id = .this := by
    decide +kernel
  obtain ⟨hreach, -, _, ⟨above, hunique, rfl⟩, hreceiver, -⟩ := hkept id (hthis id hid).1 (hthis id hid).2
  have houter : nestedArrows.Above 6 [7, 8, 0] := by
    refine .child (.child (.child .root ?_) ?_) ?_ <;> decide +kernel
  have hplace : ∃ inner, nestedArrows.Above id (inner :: 6 :: [7, 8, 0]) ∧
      nestedArrows.receiver (inner :: 6 :: [7, 8, 0]) = some 0 := by
    rcases List.mem_pair.mp hid with rfl | rfl
    · refine ⟨3, .child (.child houter ?_) ?_, ?_⟩ <;> decide +kernel
    · refine ⟨5, .child (.child houter ?_) ?_, ?_⟩ <;> decide +kernel
  obtain ⟨inner, habove, hzero⟩ := hplace
  rw [← (hunique _).mp habove] at hreceiver
  exact ⟨hreach, hzero ▸ hreceiver⟩

end Downlevel
