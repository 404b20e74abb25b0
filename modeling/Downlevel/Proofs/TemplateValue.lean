import Downlevel.Proofs.Shape

/-!
# The value of a template

A template stands for its texts and substitutions, one after another. `Evaluator` says how programs
without templates are evaluated, as far as that needs: escapes stand for texts, a sum with a text on
its left appends to it, and everything else may be anything, in any monad.
`Evaluator.withTemplates` adds what templates stand for. Quoting the text of a template keeps what it
stands for (`Escapes.string_quoted`). Only strings and sums take the place of a template, and without
templates they evaluate the substitutions in order, each of them once, and give the text that the
template gives with them (`templates_keep_values`).
-/

namespace Downlevel

/-! ## Escapes -/

/-- What a backslash and the character behind it stand for. Only some of it is fixed. -/
structure Escapes where
  value : Char → List Char
  lineFeed : value 'n' = ['\n']
  carriageReturn : value 'r' = ['\r']
  self : ∀ c ∈ ['"', '`', '$', '\\'], value c = [c]

namespace Escapes

/-- Whether an escaped character only continues a line. -/
def isLineEnd (c : Char) : Bool :=
  c = '\n' || c = '\r' || c = '\u2028' || c = '\u2029'

variable (esc : Escapes)

/-- The text that the contents of a string stand for. -/
def string : List Char → List Char
  | '\\' :: c :: cs => esc.value c ++ string cs
  | c :: cs => c :: string cs
  | [] => []

/-- The text that a text of a template stands for. An escaped line end stands for nothing, and a
backslash at the end for itself. -/
def quasi : List Char → List Char
  | '\\' :: '\r' :: '\n' :: cs => quasi cs
  | '\\' :: c :: cs => if isLineEnd c then quasi cs else esc.value c ++ quasi cs
  | c :: cs => c :: quasi cs
  | [] => []

theorem string_cons {c : Char} (hc : c ≠ '\\') (cs : List Char) :
    esc.string (c :: cs) = c :: esc.string cs := by
  rw [string.eq_2 _ _ _ fun _ _ h => absurd h hc]

theorem quasi_cons {c : Char} (hc : c ≠ '\\') (cs : List Char) :
    esc.quasi (c :: cs) = c :: esc.quasi cs := by
  rw [quasi.eq_3 _ _ _ (fun _ h => absurd h hc) fun _ _ h => absurd h hc]

theorem quasi_escape {c : Char} {cs : List Char} (hc : ∀ ds, c = '\r' → cs ≠ '\n' :: ds) :
    esc.quasi ('\\' :: c :: cs) = if isLineEnd c then esc.quasi cs else esc.value c ++ esc.quasi cs := by
  rw [quasi.eq_2 _ _ _ fun ds hr hn => hc ds hr hn]

/-- Quoting the text of a template keeps what it stands for. -/
theorem string_quoted (raw : List Char) : esc.string (Lowering.quoted raw) = esc.quasi raw := by
  fun_induction Lowering.quoted raw with
  | case1 => rfl
  | case2 => exact congrArg (· ++ []) (esc.self '\\' (by decide))
  | case3 d ds hd ih =>
    simp only [Bool.or_eq_true, decide_eq_true_eq] at hd
    have hself : esc.value d = [d] := esc.self d (by rcases hd with rfl | rfl <;> decide)
    have hends : isLineEnd d = false := by rcases hd with rfl | rfl <;> decide
    have hplain : d ≠ '\\' := by rcases hd with rfl | rfl <;> decide
    rw [esc.string_cons hplain, ih, esc.quasi_escape (by rcases hd with rfl | rfl <;> simp), hends, hself]
    rfl
  -- An escaped line end is left out.
  | case4 d ds _ hd ih =>
    simp only [Bool.or_eq_true, decide_eq_true_eq] at hd
    rw [ih, esc.quasi_escape (by rcases hd with (rfl | rfl) | rfl <;> simp), if_pos]
    rcases hd with (rfl | rfl) | rfl <;> rfl
  | case5 => rfl
  | case6 ds _ _ ih => exact ih
  | case7 e es he _ _ ih =>
    rw [ih, esc.quasi_escape (by rintro ds - ⟨⟩; exact he rfl)]
    rfl
  | case8 d ds _ hd hr ih =>
    simp only [Bool.or_eq_true, decide_eq_true_eq, not_or] at hd
    rw [esc.quasi_escape fun _ h => absurd h hr, if_neg (by simp [isLineEnd, hd, hr]), string, ih]
  | case9 cs _ ih =>
    rw [string, esc.self '"' (by decide), ih, esc.quasi_cons (by decide)]
    rfl
  | case10 cs _ _ ih =>
    rw [string, esc.lineFeed, ih, esc.quasi_cons (by decide)]
    rfl
  | case11 cs _ _ _ ih =>
    rw [string, esc.carriageReturn, ih, esc.quasi_cons (by decide)]
    rfl
  | case12 c cs hc _ _ _ ih => rw [esc.string_cons hc, ih, esc.quasi_cons hc]

end Escapes

/-! ## Values -/

/-- What an expression evaluates to: a text, or a value of some other sort. -/
inductive Value (V : Type) where
  | text (chars : List Char)
  | other (value : V)
deriving DecidableEq

/-- How programs without templates are evaluated, with effects in `m`. What is said of texts apart, it
may be anything. -/
structure Evaluator (m : Type → Type) (V : Type) where
  escapes : Escapes
  /-- The text that a value becomes where a text is needed. -/
  convert : V → m (List Char)
  /-- A sum whose left operand is no text. -/
  add : V → Value V → m (Value V)
  /-- A node that is no string and no sum, given how its children are evaluated. -/
  other : Kind (m (Value V)) → m (Value V)

namespace Evaluator

variable {m : Type → Type} [Monad m] {V : Type} (ev : Evaluator m V)

def toText : Value V → m (List Char)
  | .text chars => return chars
  | .other value => ev.convert value

/-- A text on the left is continued by the text of what is on the right. -/
def plus : Value V → Value V → m (Value V)
  | .text chars, right => return .text (chars ++ (← ev.toText right))
  | .other value, right => ev.add value right

/-- The left operand of a sum is evaluated first. -/
def sum (left right : m (Value V)) : m (Value V) := do
  ev.plus (← left) (← right)

/-- The texts of a template and its substitutions, one after another. -/
def pieces : List String → List (m (Value V)) → m (List Char)
  | text :: texts, e :: es => do
    let first ← ev.toText (← e)
    let more ← pieces texts es
    return ev.escapes.quasi text.toList ++ first ++ more
  | text :: _, [] => return ev.escapes.quasi text.toList
  | [], _ => return []

/-- How a node is evaluated, given how its children are. Nothing is said here of templates. -/
def node : Kind (m (Value V)) → m (Value V)
  | .string raw => return .text (ev.escapes.string raw.toList)
  | .binary .add left right => ev.sum left right
  | k => ev.other k

/-- The same evaluator for programs with templates. -/
def withTemplates : Evaluator m V where
  escapes := ev.escapes
  convert := ev.convert
  add := ev.add
  other
    | .template quasis expressions => return .text (← ev.pieces quasis expressions)
    | k => ev.other k

theorem node_withTemplates {k : Kind (m (Value V))} (h : ∀ quasis es, k ≠ .template quasis es) :
    ev.withTemplates.node k = ev.node k := by
  cases k with
  | template quasis es => exact absurd rfl (h quasis es)
  | binary op left right => cases op <;> rfl
  | _ => rfl

/-- The value of a tree. -/
def evaluate {σ : Type} : Tree σ → m (Value V) :=
  Tree.fold fun _ => ev.node

@[simp] theorem evaluate_node {σ : Type} (a : σ) (k : Kind (Tree σ)) :
    ev.evaluate (.node a k) = ev.node (k.map ev.evaluate) := by
  rw [evaluate, Tree.fold_node]

/-! ## Sums -/

/-- A sum of texts and of what is evaluated in between, of which `total` comes first. -/
def chain (total : m (Value V)) : List (m (Value V)) → List String → m (Value V)
  | [], _ => total
  | e :: es, [] => chain (ev.sum total e) es []
  | e :: es, text :: texts =>
    if text.isEmpty then chain (ev.sum total e) es texts
    else chain (ev.sum (ev.sum total e) (ev.node (.string text))) es texts

section Lawful

variable [LawfulMonad m]

/-- What comes first in a sum is evaluated first. -/
theorem sum_bind {α : Type} (x : m α) (f : α → m (Value V)) (right : m (Value V)) :
    ev.sum (x >>= f) right = x >>= fun a => ev.sum (f a) right :=
  bind_assoc _ _ _

theorem chain_bind {α : Type} (x : m α) (f : α → m (Value V)) (es : List (m (Value V)))
    (texts : List String) :
    ev.chain (x >>= f) es texts = x >>= fun a => ev.chain (f a) es texts := by
  induction es generalizing f texts with
  | nil => rfl
  | cons e es ih =>
    cases texts with
    | nil => simp only [chain, sum_bind, ih]
    | cons text texts =>
      simp only [chain, sum_bind, ih]
      split <;> rfl

/-- Adding to a text evaluates what is added, and then takes its text. -/
theorem sum_text (chars : List Char) (right : m (Value V)) :
    ev.sum (pure (.text chars)) right
      = right >>= fun v => ev.toText v >>= fun more => pure (.text (chars ++ more)) := by
  rw [sum, pure_bind]
  rfl

/-- A sum that starts with a text goes through the pieces of a template. -/
theorem chain_text (chars : List Char) (text : String) (es : List (m (Value V))) (texts : List String)
    (h : texts.length = es.length) :
    ev.chain (pure (.text (chars ++ ev.escapes.quasi text.toList))) es (texts.map Lowering.quotedString)
      = ev.pieces (text :: texts) es >>= fun more => pure (.text (chars ++ more)) := by
  induction es generalizing chars text texts with
  | nil => simp [chain, pieces]
  | cons e es ih =>
    obtain ⟨next, texts, rfl⟩ := List.exists_cons_of_length_eq_add_one h
    have hnext : ev.escapes.string (Lowering.quotedString next).toList = ev.escapes.quasi next.toList := by
      simp [Lowering.quotedString, Escapes.string_quoted]
    -- Whether the next text is left out or not, what follows is added to all that came before it.
    have hstep : ev.chain (pure (.text (chars ++ ev.escapes.quasi text.toList))) (e :: es)
          ((next :: texts).map Lowering.quotedString)
        = e >>= fun v => ev.toText v >>= fun first => ev.chain
            (pure (.text (chars ++ ev.escapes.quasi text.toList ++ first ++ ev.escapes.quasi next.toList)))
            es (texts.map Lowering.quotedString) := by
      rw [List.map_cons, chain]
      split
      · rename_i hempty
        have hnil : ev.escapes.quasi next.toList = [] := by
          rw [← hnext, String.isEmpty_iff.mp hempty]
          rfl
        simp only [sum_text, chain_bind, hnil, List.append_nil]
      · simp only [sum_text, sum_bind, chain_bind, node, hnext, pure_bind, toText]
    rw [hstep, pieces]
    simp only [bind_assoc, pure_bind]
    refine bind_congr fun v => bind_congr fun first => ?_
    rw [ih _ next texts (by simpa using h)]
    simp only [List.append_assoc]

/-- The sum that stands for a template gives what the template gives. -/
theorem chain_quoted {quasis : List String} {es : List (m (Value V))} (h : quasis.length = es.length + 1) :
    ev.chain (ev.node (.string ((quasis.map Lowering.quotedString).headD ""))) es
        (quasis.map Lowering.quotedString).tail
      = ev.withTemplates.node (.template quasis es) := by
  obtain ⟨text, texts, rfl⟩ := List.exists_cons_of_length_eq_add_one h
  have hchain := ev.chain_text [] text es texts (by simpa using h)
  simpa [node, withTemplates, Lowering.quotedString, Escapes.string_quoted] using hchain

end Lawful

/-! ## Trees -/

section Tree

variable {σ : Type}

theorem evaluate_sum (a : σ) (total : Kind (Tree σ)) (es : List (Tree σ)) (texts : List String) :
    ev.evaluate (.node a (Tree.sum a total es texts))
      = ev.chain (ev.evaluate (.node a total)) (es.map ev.evaluate) texts := by
  fun_induction Tree.sum a total es texts with
  | case1 => rfl
  | case2 total e es ih =>
    rw [ih, evaluate_node]
    rfl
  | case3 total e es text texts htext ih =>
    rw [ih, List.map_cons, chain, if_pos htext, evaluate_node]
    rfl
  | case4 total e es text texts htext ih =>
    rw [ih, List.map_cons, chain, if_neg htext, evaluate_node]
    simp only [Kind.map, evaluate_node, node]

/-- Lowering templates keeps the value of a tree, and templates are not needed to evaluate it. -/
theorem evaluate_rebuild [LawfulMonad m] {t : Tree σ} (h : t.Shaped) :
    ev.evaluate (t.rebuild Tree.templateStep) = ev.withTemplates.evaluate t := by
  induction t using Tree.induction_on with
  | node a k ih =>
    obtain ⟨here, below⟩ := Tree.shaped_node.mp h
    have hchildren : (k.map (Tree.rebuild Tree.templateStep)).map ev.evaluate
        = k.map ev.withTemplates.evaluate := by
      rw [Kind.map_map]
      exact Kind.map_congr fun c hc => ih c hc (below c hc)
    rw [Tree.rebuild_node, ev.withTemplates.evaluate_node a k, ← hchildren]
    cases k with
    | template quasis expressions =>
      have hlength : quasis.length = expressions.length + 1 := by
        simpa [Kind.map, Kind.shaped] using here
      rw [Kind.map, Tree.templateStep, Tree.concatenation, evaluate_sum, evaluate_node]
      exact ev.chain_quoted (by simpa using hlength)
    | _ => exact (ev.evaluate_node a _).trans (ev.node_withTemplates (by rintro _ _ ⟨⟩)).symm

end Tree

/-! ## Stores -/

/-- How a node is evaluated if those before `size` are evaluated by `old`, whatever they are, and the
others as what they are. -/
def evaluateIn (s : Store) (size : Nat) (old : NodeId → m (Value V)) : Nat → NodeId → m (Value V)
  | 0, id => old id
  | depth + 1, id =>
    if id < size then old id else ev.node ((s.kind id).map (evaluateIn s size old depth))

end Evaluator

/-- Nodes are added, and those from `size` on stay as they are. -/
structure Store.Keeps (size : Nat) (s s' : Store) : Prop where
  size_le : s.size ≤ s'.size
  node : ∀ id, size ≤ id → id < s.size → s'.node id = s.node id

namespace Store

variable {size : Nat} {s s' s'' : Store}

theorem Keeps.refl (size : Nat) (s : Store) : s.Keeps size s :=
  ⟨le_rfl, fun _ _ _ => rfl⟩

theorem Keeps.trans (h : s.Keeps size s') (h' : s'.Keeps size s'') : s.Keeps size s'' :=
  ⟨h.size_le.trans h'.size_le, fun id hid hlt =>
    (h'.node id hid (hlt.trans_le h.size_le)).trans (h.node id hid hlt)⟩

theorem Keeps.mono {size' : Nat} (h : s.Keeps size s') (hle : size ≤ size') : s.Keeps size' s' :=
  ⟨h.size_le, fun id hid => h.node id (hle.trans hid)⟩

theorem size_alloc (k : Kind NodeId) (span : Span) (s : Store) : (alloc k span s).2.size = s.size + 1 :=
  Array.size_push _

theorem keeps_alloc (k : Kind NodeId) (span : Span) (s : Store) : s.Keeps 0 (alloc k span s).2 := by
  refine ⟨(size_alloc k span s).symm ▸ Nat.le_succ _, fun id _ hid => ?_⟩
  have hid : id < s.nodes.size := hid
  simp [alloc, node, Array.getD_eq_getD_getElem?, Array.getElem?_push, hid.ne]

theorem kind_alloc (k : Kind NodeId) (span : Span) (s : Store) :
    (alloc k span s).2.kind (alloc k span s).1 = k := by
  simp [alloc, kind, node, size, Array.getD_eq_getD_getElem?]

theorem size_replace (id : NodeId) (k : Kind NodeId) : (s.replace id k).size = s.size :=
  Array.size_modify

theorem node_replace_of_ne {id i : NodeId} (k : Kind NodeId) (h : i ≠ id) :
    (s.replace id k).node i = s.node i := by
  simp [replace, node, Array.getD_eq_getD_getElem?, Array.getElem?_modify, h.symm]

theorem kind_replace {id : NodeId} (k : Kind NodeId) (h : id < s.size) : (s.replace id k).kind id = k := by
  have h : id < s.nodes.size := h
  simp only [replace, kind, node, Array.getD_eq_getD_getElem?, Array.getElem?_modify, if_pos]
  simp [h]

end Store

/-- A string or a sum. -/
def Kind.Concatenates {α : Type} (k : Kind α) : Prop :=
  (∃ raw, k = .string raw) ∨ ∃ left right, k = .binary .add left right

theorem Kind.Concatenates.string {α : Type} (raw : String) : (Kind.string raw : Kind α).Concatenates :=
  .inl ⟨raw, rfl⟩

theorem Kind.Concatenates.add {α : Type} (left right : α) : (Kind.binary .add left right).Concatenates :=
  .inr ⟨left, right, rfl⟩

/-- From `size` on, a store has only strings and sums. -/
def Store.Concatenates (size : Nat) (s : Store) : Prop :=
  ∀ i, size ≤ i → i < s.size → (s.kind i).Concatenates

theorem Store.Concatenates.alloc {size : Nat} {s : Store} {k : Kind NodeId} (hs : s.Concatenates size)
    (hk : k.Concatenates) (span : Span) : (Store.alloc k span s).2.Concatenates size := by
  intro i hi hlt
  rw [size_alloc, Nat.lt_succ_iff_lt_or_eq] at hlt
  rcases hlt with hlt | rfl
  · rw [kind, (keeps_alloc k span s).node i (Nat.zero_le _) hlt]
    exact hs i hi hlt
  · exact (kind_alloc k span s).symm ▸ hk

namespace Lowering

/-- A sum is made of strings and sums alone. -/
theorem concatenates_sum {size : Nat} {s : Store} {total : Kind NodeId} (hs : s.Concatenates size)
    (htotal : total.Concatenates) (span : Span) (es : List NodeId) (texts : List String) :
    (sum span total es texts s).1.Concatenates ∧ (sum span total es texts s).2.Concatenates size := by
  induction es generalizing total texts s with
  | nil => exact ⟨htotal, hs⟩
  | cons e es ih =>
    have hleft := hs.alloc htotal span
    cases texts with
    | nil => exact ih hleft (.add _ e) []
    | cons text texts =>
      by_cases htext : text.isEmpty = true
      · simp only [sum, if_pos htext]
        exact ih hleft (.add _ e) texts
      · simp only [sum, if_neg htext]
        exact ih ((hleft.alloc (.add _ e) span).alloc (.string text) span) (.add _ _) texts

theorem keeps_sum (span : Span) (total : Kind NodeId) (es : List NodeId) (texts : List String) (s : Store) :
    s.Keeps 0 (sum span total es texts s).2 := by
  induction es generalizing total texts s with
  | nil => exact .refl 0 s
  | cons e es ih =>
    have hkeeps := Store.keeps_alloc total span s
    cases texts with
    | nil => exact hkeeps.trans (ih _ _ _)
    | cons text texts =>
      by_cases htext : text.isEmpty = true
      · simp only [sum, if_pos htext]
        exact hkeeps.trans (ih _ _ _)
      · simp only [sum, if_neg htext]
        exact hkeeps.trans ((Store.keeps_alloc _ span _).trans ((Store.keeps_alloc _ span _).trans (ih _ _ _)))

/-- The sum for a template, and the store with the nodes it is made of. -/
def templateSum (s : Store) (id : NodeId) (quasis : List String) (es : List NodeId) : Kind NodeId × Store :=
  sum (s.span id) (.string ((quasis.map quotedString).headD "")) es (quasis.map quotedString).tail s

section Template

variable {s : Store} {id : NodeId} {quasis : List String} {es : List NodeId}

theorem keeps_templateSum : s.Keeps 0 (templateSum s id quasis es).2 :=
  keeps_sum _ _ es _ s

theorem lowerTemplate_eq (h : s.kind id = .template quasis es) :
    (lowerTemplate id s).2 = (templateSum s id quasis es).2.replace id (templateSum s id quasis es).1 := by
  simp only [lowerTemplate, bind, StateT.bind, get, getThe, MonadStateOf.get, StateT.get, pure, h]
  rfl

/-- Lowering a template changes no other node. -/
theorem node_lowerTemplate_of_ne {i : NodeId} (h : s.kind id = .template quasis es) (hi : i < s.size)
    (hne : i ≠ id) : (lowerTemplate id s).2.node i = s.node i := by
  rw [lowerTemplate_eq h, Store.node_replace_of_ne _ hne]
  exact keeps_templateSum.node i (Nat.zero_le _) hi

/-- Strings and sums take the place of a template, and nothing else is added for it. -/
theorem concatenates_lowerTemplate {i : NodeId} (h : s.kind id = .template quasis es) (hid : id < s.size)
    (hi : i = id ∨ s.size ≤ i) (hlt : i < (lowerTemplate id s).2.size) :
    ((lowerTemplate id s).2.kind i).Concatenates := by
  obtain ⟨hsum, hnew⟩ : (templateSum s id quasis es).1.Concatenates ∧
      (templateSum s id quasis es).2.Concatenates s.size :=
    concatenates_sum (fun i hi hlt => absurd hlt hi.not_gt) (.string _) _ es _
  rw [lowerTemplate_eq h, Store.size_replace] at hlt
  rw [lowerTemplate_eq h]
  by_cases hne : i = id
  · subst hne
    rwa [Store.kind_replace _ hlt]
  · rw [Store.kind, Store.node_replace_of_ne _ hne]
    exact hnew i (hi.resolve_left hne) hlt

end Template

end Lowering

namespace Evaluator

variable {m : Type → Type} [Monad m] {V : Type} (ev : Evaluator m V) {size : Nat}
  {old : NodeId → m (Value V)} {s : Store} {x : m (Value V)}

theorem evaluateIn_of_lt {id : NodeId} (h : id < size) (depth : Nat) :
    ev.evaluateIn s size old depth id = old id := by
  cases depth with
  | zero => rfl
  | succ depth => exact if_pos h

/-- A node of this kind evaluates to `x`, whatever nodes are added and whatever becomes of old ones. -/
def Gives (size : Nat) (old : NodeId → m (Value V)) (s : Store) (k : Kind NodeId) (x : m (Value V)) : Prop :=
  ∀ s', s.Keeps size s' → ∀ depth, s.size ≤ depth →
    ev.node (k.map (ev.evaluateIn s' size old depth)) = x

variable {ev}

theorem Gives.alloc {k : Kind NodeId} (h : ev.Gives size old s k x) (hsize : size ≤ s.size) (span : Span)
    {s' : Store} (hs : (Store.alloc k span s).2.Keeps size s') {depth : Nat}
    (hdepth : (Store.alloc k span s).2.size ≤ depth) :
    ev.evaluateIn s' size old depth (Store.alloc k span s).1 = x := by
  rw [Store.size_alloc] at hdepth
  obtain ⟨depth, rfl⟩ := Nat.exists_eq_add_of_le' hdepth
  have hkeeps : s.Keeps size s' := ((Store.keeps_alloc k span s).mono (Nat.zero_le _)).trans hs
  have hkind : s'.kind s.size = k :=
    (congrArg Node.kind (hs.node s.size hsize (by rw [Store.size_alloc]; exact Nat.lt_succ_self _))).trans
      (Store.kind_alloc k span s)
  rw [← Nat.add_assoc]
  refine (if_neg hsize.not_gt).trans ?_
  rw [show s'.kind (Store.alloc k span s).1 = k from hkind]
  exact h s' hkeeps _ (Nat.le_add_left _ _)

/-- A sum of two nodes. -/
theorem Gives.add {left right : NodeId} {y : m (Value V)}
    (hleft : ∀ s', s.Keeps size s' → ∀ depth, s.size ≤ depth → ev.evaluateIn s' size old depth left = x)
    (hright : ∀ s', s.Keeps size s' → ∀ depth, s.size ≤ depth → ev.evaluateIn s' size old depth right = y) :
    ev.Gives size old s (.binary .add left right) (ev.sum x y) := by
  intro s' hs depth hdepth
  rw [Kind.map, node, hleft s' hs depth hdepth, hright s' hs depth hdepth]

/-- The sum that is made of a template's texts and substitutions evaluates the substitutions in turn. -/
theorem Gives.sum {total : Kind NodeId} (h : ev.Gives size old s total x) (hsize : size ≤ s.size)
    (span : Span) {es : List NodeId} (hes : ∀ e ∈ es, e < size) (texts : List String) :
    ev.Gives size old (Lowering.sum span total es texts s).2 (Lowering.sum span total es texts s).1
      (ev.chain x (es.map old) texts) := by
  induction es generalizing s total x texts with
  | nil => exact h
  | cons e es ih =>
    rw [List.forall_mem_cons] at hes
    let s₁ := (Store.alloc total span s).2
    let left := (Store.alloc total span s).1
    have hsize₁ : size ≤ s₁.size := hsize.trans (Store.keeps_alloc total span s).size_le
    have hadd : ev.Gives size old s₁ (.binary .add left e) (ev.sum x (old e)) :=
      .add (fun s' hs depth hdepth => h.alloc hsize span hs hdepth)
        fun _ _ depth _ => ev.evaluateIn_of_lt hes.1 depth
    cases texts with
    | nil => exact ih hadd hsize₁ hes.2 []
    | cons text texts =>
      by_cases htext : text.isEmpty = true
      · simp only [Lowering.sum, List.map_cons, chain, if_pos htext]
        exact ih hadd hsize₁ hes.2 texts
      · simp only [Lowering.sum, List.map_cons, chain, if_neg htext]
        let s₂ := (Store.alloc (.binary .add left e) span s₁).2
        have hsize₂ : size ≤ s₂.size := hsize₁.trans (Store.keeps_alloc (.binary .add left e) span s₁).size_le
        have hkeeps := Store.keeps_alloc (.string text) span s₂
        have hstring : ev.Gives size old s₂ (.string text) (ev.node (.string text)) := fun _ _ _ _ => rfl
        refine ih (Gives.add (fun s' hs depth hdepth => ?_) fun s' hs depth hdepth => ?_)
          (hsize₂.trans hkeeps.size_le) hes.2 texts
        · exact hadd.alloc hsize₁ span ((hkeeps.mono (Nat.zero_le _)).trans hs) (hkeeps.size_le.trans hdepth)
        · exact hstring.alloc hsize₂ span hs hdepth

/-- What takes the place of a template in a store evaluates to what the template stands for. -/
theorem node_lowerTemplate [LawfulMonad m] {id : NodeId} {quasis : List String} {es : List NodeId}
    (hid : id < s.size) (hkind : s.kind id = .template quasis es) (hes : ∀ e ∈ es, e < s.size)
    (hlength : quasis.length = es.length + 1) :
    ev.node (((Lowering.lowerTemplate id s).2.kind id).map (ev.evaluateIn
        (Lowering.lowerTemplate id s).2 s.size old (Lowering.lowerTemplate id s).2.size))
      = ev.withTemplates.node (.template quasis (es.map old)) := by
  have hstring : ev.Gives s.size old s (.string ((quasis.map Lowering.quotedString).headD "")) _ :=
    fun _ _ _ _ => rfl
  have hgives := hstring.sum le_rfl (s.span id) hes (quasis.map Lowering.quotedString).tail
  have hlt : id < (Lowering.templateSum s id quasis es).2.size :=
    hid.trans_le Lowering.keeps_templateSum.size_le
  rw [Lowering.lowerTemplate_eq hkind, Store.kind_replace _ hlt]
  -- The new nodes do not depend on what stands at the place of the template.
  have hreplace : (Lowering.templateSum s id quasis es).2.Keeps s.size
      ((Lowering.templateSum s id quasis es).2.replace id (Lowering.templateSum s id quasis es).1) :=
    ⟨(Store.size_replace _ _).ge, fun i hi _ => Store.node_replace_of_ne _ (hid.trans_le hi).ne'⟩
  exact (hgives _ hreplace _ hreplace.size_le).trans (ev.chain_quoted (by simpa using hlength))

end Evaluator

/-- Quoting keeps the text that a part of a template stands for. Strings and sums take the place of a
template, and no other node is changed or added. Whatever else the store holds and however the
substitutions are evaluated, the sum gives the parts of the template in order and evaluates each
substitution once. So a pass over a whole program keeps its value, and templates, which need a meaning
before it, need none after it. -/
theorem templates_keep_values :
    (∀ raw : List Char, Lexeme.stringContents (Lowering.quoted raw) = (Lowering.quoted raw).length ∧
      ∀ esc : Escapes, esc.string (Lowering.quoted raw) = esc.quasi raw) ∧
    (∀ (s s' : Store) (id : NodeId) (quasis : List String) (es : List NodeId), id < s.size →
      s.kind id = .template quasis es → (∀ e ∈ es, e < s.size) → quasis.length = es.length + 1 →
      s' = (Lowering.lowerTemplate id s).2 →
      (∀ i < s.size, i ≠ id → s'.node i = s.node i) ∧
      (∀ i < s'.size, i = id ∨ s.size ≤ i → (s'.kind i).Concatenates) ∧
      ∀ (m : Type → Type) [Monad m] [LawfulMonad m] (V : Type) (ev : Evaluator m V)
        (old : NodeId → m (Value V)),
        ev.node ((s'.kind id).map (ev.evaluateIn s' s.size old s'.size))
          = (do return .text (← ev.pieces quasis (es.map old)))) ∧
    ∀ md : Module, md.tree.Shaped →
      ∃ walked md', Lowering.templateLiterals.run md = (.ok walked, md') ∧
        ∀ (m : Type → Type) [Monad m] [LawfulMonad m] (V : Type) (ev : Evaluator m V),
          ev.evaluate md'.tree.toTree = ev.withTemplates.evaluate md.tree.toTree := by
  refine ⟨fun raw => ⟨Lexeme.stringContents_quoted raw, fun esc => esc.string_quoted raw⟩, ?_, ?_⟩
  · rintro s _ id quasis es hid hkind hes hlength rfl
    exact ⟨fun i => Lowering.node_lowerTemplate_of_ne hkind,
      fun i hlt hi => Lowering.concatenates_lowerTemplate hkind hid hi hlt,
      fun m _ _ V ev old => Evaluator.node_lowerTemplate hid hkind hes hlength⟩
  · intro md h
    obtain ⟨t, ht, hshaped⟩ := h.exists_holds
    obtain ⟨walked, md', t', hrun, ht', hplain, -⟩ := Construct.templateLiteral.lowers md t ht
    refine ⟨walked, md', hrun, fun m _ _ V ev => ?_⟩
    rw [ht.toTree, ht'.toTree, hplain]
    exact ev.evaluate_rebuild hshaped

/-- The tree of a statement that is a template, with two substitutions and no text between them. -/
def twoSubstitutions : Store where
  nodes := #[.program [4], .identifier "b", .identifier "c", .template ["a\\`", "", "\n"] [1, 2],
    .expressionStatement 3].map (⟨·, {}⟩)
  root := 0

/-- Numbers as values, with a note of every number that is evaluated. -/
def noting : Evaluator (StateM (List NodeId)) NodeId where
  escapes := ⟨fun c => if c = 'n' then ['\n'] else if c = 'r' then ['\r'] else [c], rfl, rfl, by simp⟩
  convert value := return (toString value).toList
  add _ right := return right
  other _ := return .other 0

theorem templates_keep_values_twoSubstitutions :
    (∃ s', s' = (Lowering.lowerTemplate 3 twoSubstitutions).2 ∧
      Id.run (noting.node ((s'.kind 3).map (noting.evaluateIn s' twoSubstitutions.size
        (fun id => do modify (· ++ [id]); return .other id) s'.size)) [])
        = (.text "a`12\n".toList, [1, 2])) ∧
    twoSubstitutions.Shaped ∧
      ∃ walked md', Lowering.templateLiterals.run (.ofTree "" twoSubstitutions) = (.ok walked, md') ∧
        noting.evaluate md'.tree.toTree = noting.withTemplates.evaluate twoSubstitutions.toTree := by
  obtain ⟨-, hnode, hrun⟩ := templates_keep_values
  refine ⟨⟨_, rfl, ?_⟩, ?_⟩
  · obtain ⟨-, -, hvalue⟩ := hnode twoSubstitutions _ 3 ["a\\`", "", "\n"] [1, 2] (by decide +kernel)
      (by decide +kernel) (by decide +kernel) rfl rfl
    rw [hvalue]
    decide +kernel
  · have hshaped : twoSubstitutions.Shaped := ⟨by decide +kernel, by decide +kernel, by decide +kernel⟩
    obtain ⟨walked, md', hrun, hvalue⟩ := hrun (.ofTree "" twoSubstitutions) hshaped
    exact ⟨hshaped, walked, md', hrun, hvalue _ _ noting⟩

end Downlevel
