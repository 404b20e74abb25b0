import Downlevel.Proofs.Leading
import Downlevel.Proofs.Listing

/-!
# Expressions read back

How the text of an expression is read where an expression is expected, for the operands of operators
and for what suffixes follow. Everything follows from how the expression is read where its own binding
strength is asked for (`ReadsBack`): elsewhere it is weakened, or stands in parentheses.
-/

namespace Downlevel

open Lexeme Phrase

theorem BinaryOp.precedence_bounds (op : BinaryOp) : 2 ≤ op.precedence ∧ op.precedence ≤ 8 := by
  cases op <;> decide

theorem Kind.precedence_bounds {α : Type} (k : Kind α) : 1 ≤ k.precedence ∧ k.precedence ≤ 11 := by
  unfold Kind.precedence
  split
  case h_3 op _ _ =>
    have := op.precedence_bounds
    omega
  all_goals decide

namespace Tree

/-- The text of a tree that needs no parentheses. -/
def own (t : Tree Unit) (i : Nat) : List Char :=
  Layout.own (t.kind.map layout) i

/-- The text of an expression that must bind at least as strongly as `m`. -/
def operand (t : Tree Unit) (m i : Nat) : List Char :=
  t.layout.text (.expression m) i

theorem operand_of_lt {t : Tree Unit} {m : Nat} (ht : t.kind.isExpression = true)
    (h : t.kind.precedence < m) (i : Nat) : t.operand m i = '(' :: (t.own i ++ [')']) := by
  obtain ⟨a, k⟩ := t
  have ht : k.category = .expression := of_decide_eq_true ht
  have h : k.precedence < m := h
  simp [operand, layout_node, Layout.node, Role.layout, ht, h, own]

theorem operand_of_le {t : Tree Unit} {m : Nat} (ht : t.kind.isExpression = true)
    (h : m ≤ t.kind.precedence) (i : Nat) : t.operand m i = t.own i := by
  obtain ⟨a, k⟩ := t
  have ht : k.category = .expression := of_decide_eq_true ht
  have h : ¬ k.precedence < m := not_lt.mpr h
  simp [operand, layout_node, Layout.node, Role.layout, ht, h, own]

/-- Whether an expression in parentheses can be read as the parameters of an arrow function, or is
an arrow function itself. -/
def mimics : Tree Unit → Bool
  | node _ (.identifier _) | node _ (.arrowFunction ..) => true
  | node _ (.assign target _) => target.kind.identifierName?.isSome
  | _ => false

def isArrow : Tree Unit → Bool
  | node _ (.arrowFunction ..) => true
  | _ => false

/-- How the text of an expression is read: at the level of its binding strength, before further
operators or suffixes of that strength, and at its start. -/
structure ReadsBack (e : Tree Unit) : Prop where
  own (i : Nat) {rest : List Char} (hrest : Stops e.kind.precedence rest) :
    (level e.kind.precedence).Reads (e.own i ++ rest) rest (Builds e)
  chain (h : 2 ≤ e.kind.precedence) (h' : e.kind.precedence ≤ 7) (i : Nat) {mid rest : List Char}
    {P : Built → Prop} (hmid : Stops (e.kind.precedence + 1) mid)
    (hs : ∀ v, Builds e v → Folds Build.binary (operation e.kind.precedence) v mid rest P) :
    (level e.kind.precedence).Reads (e.own i ++ mid) rest P
  suffix (h : e.kind.precedence = 10) (i : Nat) {mid rest : List Char} {P : Built → Prop}
    (hmid : tokenEnds mid = true)
    (hs : ∀ v, Builds e v → Folds Build.suffixed suffix v mid rest P) :
    (rule .postfixChain).Reads (e.own i ++ mid) rest P
  leading (h : e.mimics = false) (i : Nat) {k : List Char} (hk : tokenEnds k = true) :
    Leading (e.own i ++ k)
  /-- The expression is not read as an arrow function. -/
  arrow (h : e.isArrow = false) (i : Nat) {rest : List Char} (hrest : Stops 1 rest) :
    (rule .arrowFunction).Refuses (e.own i ++ rest)
  /-- In parentheses, the expression is not read as parameters before an arrow. -/
  group (i : Nat) {mid : List Char} (hmid : ['=', '>'].isPrefixOf (skip mid) = false) :
    arrowHead.Refuses ('(' :: (e.own i ++ ')' :: mid))

namespace ReadsBack

variable {e : Tree Unit} {i : Nat} {mid rest : List Char} {P : Built → Prop}

theorem stops_of_tokenEnds (h : tokenEnds rest = true) : Stops 11 rest :=
  ⟨h, fun _ hs => absurd hs (by simp [continuations])⟩

theorem expression (h : e.ReadsBack) (i : Nat) (hrest : Stops 1 rest) :
    (level 1).Reads (e.own i ++ rest) rest (Builds e) := by
  by_cases hp : e.kind.precedence = 1
  · have := h.own i (hp ▸ hrest)
    rwa [hp] at this
  · have hle := e.kind.precedence_bounds
    have harrow : e.isArrow = false := by
      obtain ⟨a, k⟩ := e
      cases k with
      | arrowFunction => exact absurd rfl hp
      | _ => rfl
    refine Reads.assignment ?_ hrest (h.arrow harrow i hrest)
    exact (h.own i (hrest.mono hle.1)).weaken le_rfl (by omega) hle.2 (hrest.mono (by omega))

theorem parenthesized (h : e.ReadsBack) (i : Nat) (rest : List Char) :
    primary.Reads ('(' :: (e.own i ++ [')']) ++ rest) rest (Builds e) := by
  have hopen := opening_of_yields (h.expression i (stops_closing (c := ')') (by simp) rest))
  have hclose : skip (')' :: rest) = ')' :: rest := skip_sign (by simp) rest
  rw [List.cons_append, List.append_assoc, List.singleton_append]
  refine .right (refuses_of_starts 2 rfl rfl) (.left (.seq (.seq (.sign rfl ?_))))
  rw [hopen.skip]
  refine .rule (Yields.mono (h.expression i (stops_closing (by simp) rest)) fun v left hv => ?_)
  rw [hv.1, hclose]
  exact .lit rfl ⟨rfl, hv.2⟩

/-- It suffices that the text starts with no parameters. -/
theorem of_leading
    (own : ∀ i {rest}, Stops e.kind.precedence rest →
      (level e.kind.precedence).Reads (e.own i ++ rest) rest (Builds e))
    (chain : 2 ≤ e.kind.precedence → e.kind.precedence ≤ 7 → ∀ i {mid rest P},
      Stops (e.kind.precedence + 1) mid →
      (∀ v, Builds e v → Folds Build.binary (operation e.kind.precedence) v mid rest P) →
      (level e.kind.precedence).Reads (e.own i ++ mid) rest P)
    (suffix : e.kind.precedence = 10 → ∀ i {mid rest P}, tokenEnds mid = true →
      (∀ v, Builds e v → Folds Build.suffixed Phrase.suffix v mid rest P) →
      (rule .postfixChain).Reads (e.own i ++ mid) rest P)
    (leading : ∀ i {k}, tokenEnds k = true → Leading (e.own i ++ k)) : e.ReadsBack where
  own := own
  chain h h' := chain h h'
  suffix h := suffix h
  leading _ := leading
  arrow _ i _ hrest := (leading i hrest.ends).arrowFunction
  group i _ _ := (leading i rfl).group

/-- Where neither operators of the same strength nor suffixes follow. -/
theorem of_level (p : Nat) (hp : e.kind.precedence = p) (hp' : p ∈ [8, 9, 11])
    (own : ∀ i {rest}, Stops p rest → (level p).Reads (e.own i ++ rest) rest (Builds e))
    (leading : ∀ i {k}, tokenEnds k = true → Leading (e.own i ++ k)) : e.ReadsBack := by
  subst hp
  simp only [List.mem_cons, List.not_mem_nil, or_false] at hp'
  exact of_leading own (fun _ h => by omega) (fun h => by omega) leading

/-- An operator that groups to the left. -/
theorem of_chain (hp : 2 ≤ e.kind.precedence) (hp' : e.kind.precedence ≤ 7)
    (chain : ∀ i {mid rest P}, Stops (e.kind.precedence + 1) mid →
      (∀ v, Builds e v → Folds Build.binary (operation e.kind.precedence) v mid rest P) →
      (level e.kind.precedence).Reads (e.own i ++ mid) rest P)
    (leading : ∀ i {k}, tokenEnds k = true → Leading (e.own i ++ k)) : e.ReadsBack :=
  of_leading (fun i _ hrest => chain i (hrest.mono (Nat.le_succ _)) fun _ hv =>
      .stop (refuses_operation hp hp' hrest) hv)
    (fun _ _ => chain) (fun h => by omega) leading

/-- An operand with a suffix. -/
theorem of_suffix (hp : e.kind.precedence = 10)
    (suffix : ∀ i {mid rest P}, tokenEnds mid = true →
      (∀ v, Builds e v → Folds Build.suffixed Phrase.suffix v mid rest P) →
      (rule .postfixChain).Reads (e.own i ++ mid) rest P)
    (leading : ∀ i {k}, tokenEnds k = true → Leading (e.own i ++ k)) : e.ReadsBack := by
  refine of_leading (fun i rest hrest => ?_) (fun _ h => by omega) (fun _ => suffix) leading
  rw [hp] at hrest ⊢
  exact suffix i hrest.ends fun _ hv => .stop (refuses_suffix hrest) hv

section Operand

variable (he : e.kind.isExpression = true)
include he

/-- How an operand is read before what does not continue it. -/
theorem operand (h : e.ReadsBack) {p : Nat} (hp : 1 ≤ p) (hp' : p ≤ 11) (i : Nat)
    (hrest : Stops p rest) : (level p).Reads (e.operand p i ++ rest) rest (Builds e) := by
  have hb := e.kind.precedence_bounds
  rcases Nat.lt_or_ge e.kind.precedence p with hlt | hge
  · rw [operand_of_lt he hlt]
    exact Reads.weaken (q := 11) (by omega) hp' le_rfl (h.parenthesized i rest) hrest
  · rw [operand_of_le he hge]
    rcases Nat.eq_or_lt_of_le hp with rfl | hp
    · exact h.expression i hrest
    · exact (h.own i (hrest.mono hge)).weaken hp hge hb.2 hrest

/-- How the left operand of a chain is read. -/
theorem operand_chain (h : e.ReadsBack) {p : Nat} (hp : 2 ≤ p) (hp' : p ≤ 7) (i : Nat)
    (hmid : Stops (p + 1) mid)
    (hs : ∀ v, Builds e v → Folds Build.binary (operation p) v mid rest P) :
    (level p).Reads (e.operand p i ++ mid) rest P := by
  have hb := e.kind.precedence_bounds
  rcases Nat.lt_trichotomy e.kind.precedence p with hlt | rfl | hgt
  · rw [operand_of_lt he hlt]
    exact reads_chain hp hp' (Reads.weaken (q := 11) (by omega) (by omega) le_rfl
      (h.parenthesized i mid) hmid) hs
  · rw [operand_of_le he le_rfl]
    exact h.chain hp hp' i hmid hs
  · rw [operand_of_le he hgt.le]
    exact reads_chain hp hp' ((h.own i (hmid.mono hgt)).weaken (by omega) hgt hb.2 hmid) hs

/-- How an operand is read before suffixes. -/
theorem operand_suffix (h : e.ReadsBack) (i : Nat) (hmid : tokenEnds mid = true)
    (hs : ∀ v, Builds e v → Folds Build.suffixed Phrase.suffix v mid rest P) :
    (level 10).Reads (e.operand 10 i ++ mid) rest P := by
  have hb := e.kind.precedence_bounds
  rcases Nat.lt_trichotomy e.kind.precedence 10 with hlt | heq | hgt
  · rw [operand_of_lt he hlt]
    exact reads_postfixChain (h.parenthesized i mid) hs
  · rw [operand_of_le he heq.ge]
    exact h.suffix heq i hmid hs
  · have hprimary : e.kind.precedence = 11 := by omega
    rw [operand_of_le he hgt.le]
    have hown : (level e.kind.precedence).Reads (e.own i ++ mid) mid (Builds e) :=
      h.own i (hprimary ▸ stops_of_tokenEnds hmid)
    rw [hprimary] at hown
    exact reads_postfixChain hown hs

theorem leading_operand (h : e.ReadsBack) {p : Nat} (hp : 2 ≤ p) (i : Nat) {k : List Char}
    (hk : Breaks k) (hformed : e.Formed) : Leading (e.operand p i ++ k) := by
  rcases Nat.lt_or_ge e.kind.precedence p with hlt | hge
  · rw [operand_of_lt he hlt, List.cons_append, List.append_assoc, List.singleton_append]
    exact .sign rfl ⟨'(', _, rfl, by decide⟩ (h.group i hk.arrow)
  · rw [operand_of_le he hge]
    cases hm : e.mimics with
    | false => exact h.leading hm i hk.ends
    | true =>
      obtain ⟨a, k'⟩ := e
      cases k' with
      | identifier x => exact .name rfl (formed_node.mp hformed).1 hk
      | assign | arrowFunction =>
        have : p ≤ 1 := hge
        omega
      | _ => cases hm

omit he in
theorem opening (h : e.ReadsBack) (i : Nat) (k : List Char) : Opening (e.own i ++ k) := by
  have hopen := opening_of_yields (h.expression i (stops_closing (c := ')') (by simp) []))
  obtain ⟨c, tail, hcs, hc⟩ := hopen
  cases hown : e.own i with
  | nil =>
    rw [hown, List.nil_append, List.cons.injEq] at hcs
    exact absurd (by simp [← hcs.1]) hc
  | cons d s =>
    rw [hown, List.cons_append, List.cons.injEq] at hcs
    exact ⟨d, s ++ k, rfl, hcs.1 ▸ hc⟩

theorem opening_operand (h : e.ReadsBack) (p i : Nat) (k : List Char) :
    Opening (e.operand p i ++ k) := by
  rcases Nat.lt_or_ge e.kind.precedence p with hlt | hge
  · rw [operand_of_lt he hlt]
    exact ⟨'(', _, rfl, by decide⟩
  · rw [operand_of_le he hge]
    exact h.opening i k

theorem length_operand (h : e.ReadsBack) (p i : Nat) : 1 ≤ (e.operand p i).length := by
  obtain ⟨c, tail, hcs, -⟩ := h.opening_operand he p i []
  rw [List.append_nil] at hcs
  simp [hcs]

end Operand

end ReadsBack

/-! ## Values after an equals sign -/

theorem ReadsBack.meets_expression {e : Tree Unit} (h : e.ReadsBack)
    (he : e.kind.isExpression = true) (i : Nat) {rest : List Char} (hrest : Stops 1 rest) :
    (rule .expression).Meets (e.operand 1 i ++ rest) rest (Builds e) :=
  ⟨(h.opening_operand he 1 i rest).skip, .rule (h.operand he (by decide) (by decide) i hrest)⟩

section Init

variable {t? : Option (Tree Unit)} (h : ∀ t ∈ t?, t.ReadsBack)
  (he : ∀ t ∈ t?, t.kind.isExpression = true) {i : Nat} {rest : List Char} (hrest : Stops 1 rest)

/-- The value after an equals sign, if there is one. -/
def initText (t? : Option (Tree Unit)) (i : Nat) : List Char :=
  Layout.maybe " = " (.expression Precedence.assign) i (t?.map layout)

theorem tokenEnds_initText (t? : Option (Tree Unit)) (i : Nat) (hrest : tokenEnds rest = true) :
    tokenEnds (initText t? i ++ rest) = true := by
  cases t? with
  | none => exact hrest
  | some t => rfl

include h he hrest

theorem reads_init : Reads (Peg.optional init) (skip (initText t? i ++ rest)) rest
    fun v => BuildsMaybe t? (Build.maybe v) := by
  cases t? with
  | none =>
    exact .missing (.seq (.lit (hrest.stops "=" (by decide)))) ⟨skip_skip rest, buildsMaybe_none⟩
  | some t =>
    have hmeets := (h t rfl).meets_expression (he t rfl) i hrest
    have hcs : initText (some t) i ++ rest = ' ' :: '=' :: ' ' :: (t.operand 1 i ++ rest) := by
      simp [initText, Layout.maybe, operand, Precedence.assign]
    rw [hcs, skip_space, skip_sign (by simp)]
    refine .present (.seq (.sign rfl ?_))
    rw [skip_space, hmeets.skip]
    exact Yields.mono hmeets.reads fun v left hv => ⟨hv.1, buildsMaybe_some hv.2⟩

theorem meets_declarator {a : Unit} {x : String} (hx : isIdentifier x = true) :
    (rule .declarator).Meets ((node a (.declarator x t?)).own i ++ rest) rest
      (Builds (node a (.declarator x t?))) := by
  have hown : (node a (.declarator x t?)).own i = x.toList ++ initText t? i := rfl
  rw [hown, List.append_assoc]
  refine ⟨skip_identifier hx _, .rule (.span (.seq (.map
    (yields_identifier hx (tokenEnds_initText t? i hrest.ends) fun name hname => ?_))))⟩
  exact Yields.mono (reads_init h he hrest) fun v left hv range =>
    ⟨hv.1, hname ▸ builds_declarator hv.2 range⟩

/-- A parameter, with dots before it if it takes the remaining arguments. -/
theorem meets_param {a : Unit} {x : String} (hx : isIdentifier x = true) (dots : Bool) :
    (rule .param).Meets ((node a (.param x t? dots)).own i ++ rest) rest
      (BuildsParam (node a (.param x t? dots))) := by
  have hown : (node a (.param x t? dots)).own i
      = (if dots then "...".toList else []) ++ x.toList ++ initText t? i := rfl
  have hname : ∀ marker : Option Unit, marker.isSome = dots → Yields (rule .identifier)
      (x.toList ++ (initText t? i ++ rest)) fun name left => Yields (Peg.optional init) (skip left)
        fun v left => ∀ range, skip left = skip rest ∧
          BuildsParam (node a (.param x t? dots)) ⟨range, marker.isSome, name.text, v⟩ := by
    intro marker hmarker
    refine yields_identifier hx (tokenEnds_initText t? i hrest.ends) fun name hname => ?_
    exact Yields.mono (reads_init h he hrest) fun v left hv range =>
      ⟨hv.1, t?, by rw [hname, hmarker], hv.2⟩
  rw [hown, List.append_assoc, List.append_assoc]
  cases dots with
  | false =>
    refine ⟨skip_identifier hx _, .rule (.span (.seq (.seq (.map (.missing (.rule (.lit
      (isPrefixOf_identifier hx (by decide) ['.', '.'] _))) ?_)))))⟩
    exact (skip_identifier hx (initText t? i ++ rest)).symm ▸ hname none rfl
  | true =>
    have hskip : skip ("...".toList ++ (x.toList ++ (initText t? i ++ rest)))
        = "...".toList ++ (x.toList ++ (initText t? i ++ rest)) := skip_sign (by decide) _
    refine ⟨hskip, .rule (.span (.seq (.seq (.map (.present (.rule (.lit rfl ?_)))))))⟩
    exact (skip_identifier hx (initText t? i ++ rest)).symm ▸ hname (some ()) rfl

end Init

/-! ## Operators -/

section Operators

variable {a : Unit} {l r : Tree Unit} (hl : l.ReadsBack) (hr : r.ReadsBack)
  (hle : l.kind.isExpression = true) (hre : r.kind.isExpression = true)

theorem own_binary (op : BinaryOp) (i : Nat) (k : List Char) :
    (node a (.binary op l r)).own i ++ k = l.operand op.operandPrecedence.1 i
      ++ ' ' :: (op.symbol.toList ++ ' ' :: (r.operand op.operandPrecedence.2 i ++ k)) := by
  have hown : (node a (.binary op l r)).own i = l.operand op.operandPrecedence.1 i ++ [' ']
      ++ op.symbol.toList ++ [' '] ++ r.operand op.operandPrecedence.2 i := rfl
  simp [hown]

include hr hre

theorem reads_operation {op : BinaryOp} (hop : op ≠ .power) (i : Nat) {rest : List Char}
    (hrest : Stops (op.precedence + 1) rest) : (operation op.precedence).Reads
      (op.symbol.toList ++ ' ' :: (r.operand (op.precedence + 1) i ++ rest)) rest
      fun step => Build.operator step.1 = .ok op ∧ Builds r step.2 := by
  have hb := op.precedence_bounds
  have hopen := hr.opening_operand hre (op.precedence + 1) i rest
  refine .seq (.map (Yields.mono
    (reads_operators hop hopen.skip (hopen.isPrefixOf (by decide) [])) fun sign left hsign => ?_))
  rw [hsign.1, hopen.skip]
  exact (hr.operand hre (by omega) (by omega) i hrest).mono fun v hv => ⟨hsign.2, hv⟩

include hl hle

/-- Operators that group to the left are read one after another. -/
theorem readsBack_binary {op : BinaryOp} (hop : op ≠ .power) (hformed : l.Formed) :
    (node a (.binary op l r)).ReadsBack := by
  have hle7 : op.precedence ≤ 7 := by cases op <;> first | decide | exact absurd rfl hop
  have hge2 := op.precedence_bounds.1
  have hoperands : op.operandPrecedence = (op.precedence, op.precedence + 1) := by
    cases op <;> first | rfl | exact absurd rfl hop
  have hn : (operation op.precedence).nullable Rule.mayBeEmpty = false := by cases op <;> rfl
  refine ReadsBack.of_chain hge2 hle7 (fun i mid rest P hmid hs => ?_) (fun i k _ => ?_)
  · rw [own_binary, hoperands]
    refine hl.operand_chain hle hge2 hle7 i (stops_operator op _) fun v hv => ?_
    have hstep := reads_operation hr hre hop i hmid
    rw [← skip_symbol, ← skip_space] at hstep
    exact Folds.next hn hstep fun step hstep => hs _ (builds_binary hstep.1 hv hstep.2)
  · rw [own_binary, hoperands]
    exact hl.leading_operand hle hge2 i (breaks_operator op _) hformed

/-- The power operator groups to the right. -/
theorem readsBack_power (hformed : l.Formed) : (node a (.binary .power l r)).ReadsBack := by
  refine ReadsBack.of_level 8 rfl (by decide) (fun i rest hrest => ?_) (fun i k _ => ?_)
  · rw [own_binary]
    have hopen := hr.opening_operand hre 8 i rest
    have hsign := stops_operator .power (r.operand 8 i ++ rest)
    have hbase := Reads.unary (hl.operand hle (by decide) (by decide) i (hsign.mono (by decide)))
    refine .rule (.span (.seq (.map (Yields.mono hbase fun v left hv => ?_))))
    rw [hv.1, skip_space, skip_symbol]
    refine .present (.seq (.rule (Yields.mono (@reads_operator _ .power _ (.lit rfl rfl))
      fun sign left hsign => ?_)))
    rw [hsign.1, hopen.skip]
    exact Yields.mono (hr.operand hre (by decide) (by decide) i hrest) fun w left hw range =>
      ⟨hw.1, builds_exponent hv.2 hw.2 range⟩
  · rw [own_binary]
    exact hl.leading_operand hle (by decide) i (breaks_operator .power _) hformed

omit hl hle in
theorem readsBack_unary (op : UnaryOp) : (node a (.unary op r)).ReadsBack := by
  have hown : ∀ i, (node a (.unary op r)).own i = op.symbol.toList ++ r.operand 9 i := fun _ => rfl
  refine ReadsBack.of_level 9 rfl (by decide) (fun i rest hrest => ?_) (fun i k _ => ?_)
  · have hopen := hr.opening_operand hre 9 i rest
    have hop : (rule .unaryOperator).Yields (op.symbol.toList ++ (r.operand 9 i ++ rest))
        fun v left => v = op ∧ left = r.operand 9 i ++ rest := by
      cases op with
      | not => exact .rule (.left (.map (.lit rfl ⟨rfl, rfl⟩)))
      | minus => exact .rule (.right (.map (.lit rfl)) (.map (.lit rfl ⟨rfl, rfl⟩)))
    rw [hown, List.append_assoc]
    refine .rule (.left (.span (.seq (.map (Yields.mono hop ?_)))))
    rintro _ _ ⟨rfl, rfl⟩
    rw [hopen.skip]
    exact Yields.mono (hr.operand hre (by decide) (by decide) i hrest) fun v left hv range =>
      ⟨hv.1, builds_unary _ hv.2 range⟩
  · rw [hown, List.append_assoc]
    cases op with
    | not => exact leading_of_sign rfl (by decide) (by decide) _
    | minus => exact leading_of_sign rfl (by decide) (by decide) _

/-! ## Assignments -/

omit hl hr hle hre in
theorem own_assign (i : Nat) (k : List Char) : (node a (.assign l r)).own i ++ k
    = l.operand 10 i ++ ' ' :: '=' :: ' ' :: (r.operand 1 i ++ k) := by
  have hown : (node a (.assign l r)).own i
      = l.operand 10 i ++ [' ', '=', ' '] ++ r.operand 1 i := rfl
  simp [hown]

omit hl hle in
theorem reads_value (i : Nat) {rest : List Char} (hrest : Stops 1 rest) :
    (assignSign *> rule .assignment).Reads ('=' :: ' ' :: (r.operand 1 i ++ rest)) rest
      (Builds r) := by
  have hopen := hr.opening_operand hre 1 i rest
  refine .seq (.seq (.sign rfl ?_))
  rw [skip_space, hopen.skip]
  refine .absent ?_ ?_
  · have hequals := hopen.isPrefixOf (c := '=') (by decide) []
    have harrow := hopen.isPrefixOf (c := '>') (by decide) []
    simp [hequals, harrow]
  · rw [hopen.skip]
    exact hr.operand hre (by decide) (by decide) i hrest

omit hl hr hle hre in
/-- A place that can be assigned to is a name, or has a base. -/
theorem place_cases (hplace : l.kind.isPlace = true) (hformed : l.Formed) :
    (∃ b x, l = node b (.identifier x) ∧ isIdentifier x = true) ∨
      (l.kind.identifierName? = none ∧ l.mimics = false) := by
  obtain ⟨b, k⟩ := l
  cases k with
  | identifier x => exact .inl ⟨b, x, rfl, (formed_node.mp hformed).1⟩
  | member | index => exact .inr ⟨rfl, rfl⟩
  | _ => cases hplace

theorem readsBack_assign (hplace : l.kind.isPlace = true) (hformed : l.Formed) :
    (node a (.assign l r)).ReadsBack := by
  have hprec : 10 ≤ l.kind.precedence := by
    obtain ⟨b, k⟩ := l
    cases k with
    | identifier => exact (by decide : 10 ≤ 11)
    | member | index => exact le_refl 10
    | _ => cases hplace
  have hleading : l.mimics = false → ∀ i k, Leading ((node a (.assign l r)).own i ++ k) := by
    intro hm i k
    rw [own_assign, operand_of_le hle hprec]
    exact hl.leading hm i rfl
  have harrow : ∀ i {rest}, Stops 1 rest →
      (rule .arrowFunction).Refuses ((node a (.assign l r)).own i ++ rest) := by
    intro i rest hrest
    rcases place_cases hplace hformed with ⟨b, x, rfl, hx⟩ | ⟨-, hm⟩
    · rw [own_assign, operand_of_le hle hprec]
      have hname : (rule .identifier).Yields (x.toList ++ ' ' :: '=' :: ' ' :: (r.operand 1 i ++ rest))
          fun _ left => Refuses (Peg.lit "=>") (skip left) :=
        yields_identifier hx rfl fun _ _ => .lit (by
          rw [skip_space, skip_sign (by simp)]
          rfl)
      exact .rule (.span (.seq (.map (.seq_right (.rule (.left (.map hname)))))))
    · exact (hleading hm i rest).arrowFunction
  refine ⟨fun i rest hrest => ?_, fun h => absurd h (show ¬ 2 ≤ 1 by decide),
    fun h => absurd h (show 1 ≠ 10 by decide), fun h i k _ => ?_, fun _ => harrow, fun i mid hmid => ?_⟩
  · have htarget := (hl.operand hle (by decide) (by decide) i
      ((stops_assignSign (r.operand 1 i ++ rest)).mono (by decide))).weaken (p := 2) (q := 10) le_rfl
      (by decide) (by decide) (stops_assignSign _)
    refine .rule (.right (harrow i hrest) ?_)
    rw [own_assign]
    refine .span (.seq (.map (Yields.mono htarget fun v left hv => ?_)))
    rw [hv.1, skip_space, skip_sign (by simp)]
    exact .present (Yields.mono (reads_value hr hre i hrest) fun w left hw range =>
      ⟨hw.1, builds_assignment hplace hv.2 hw.2 range⟩)
  · rcases place_cases hplace hformed with ⟨b, x, rfl, -⟩ | ⟨-, hm⟩
    · cases h
    · exact hleading hm i k
  · rcases place_cases hplace hformed with ⟨b, x, rfl, hx⟩ | ⟨-, hm⟩
    · have hparam : (rule .param).Meets ((node a (.param x (some r) false)).own i ++ ')' :: mid)
          (')' :: mid) (BuildsParam (node a (.param x (some r) false))) :=
        meets_param (by simpa using hr) (by simpa using hre) (stops_closing (by simp) mid) hx false
      have hcs : (node a (.param x (some r) false)).own i
          = (node a (.assign (node b (.identifier x)) r)).own i :=
        (List.append_assoc ..).symm
      rw [hcs] at hparam
      exact refuses_arrowHead hparam.skip (hparam.reads.mono fun _ _ => trivial) hmid
    · exact (hleading hm i (')' :: mid)).group

end Operators

/-! ## Suffixes -/

theorem refuses_expression_of_close {c : Char} (hc : c ∈ [')', ']', ';']) (rest : List Char) :
    (rule .expression).Refuses (c :: rest) := by
  simp only [List.mem_cons, List.not_mem_nil, or_false] at hc
  rcases hc with rfl | rfl | rfl <;> exact refuses_of_starts 14 rfl rfl

section Suffixes

variable {a : Unit} {base : Tree Unit} (hb : base.ReadsBack) (hbe : base.kind.isExpression = true)
  (hformed : base.Formed)
include hb hbe hformed

/-- What is printed after its base is read after it. -/
theorem readsBack_suffix {e : Tree Unit} (hp : e.kind.precedence = 10) (text : Nat → List Char)
    (hown : ∀ i, e.own i = base.operand 10 i ++ text i)
    (hbreaks : ∀ i k, Breaks (text i ++ k))
    (hsuffix : ∀ i {k}, tokenEnds k = true → Reads suffix (skip (text i ++ k)) k
      fun s => ∀ v, Builds base v → Builds e (Build.suffixed v s)) : e.ReadsBack := by
  refine ReadsBack.of_suffix hp (fun i mid rest P hmid hs => ?_) (fun i k _ => ?_)
  · rw [hown, List.append_assoc]
    refine hb.operand_suffix hbe i (hbreaks i mid).ends fun v hv => ?_
    exact Folds.next rfl (hsuffix i hmid) fun s hstep => hs _ (hstep v hv)
  · rw [hown, List.append_assoc]
    exact hb.leading_operand hbe (by decide) i (hbreaks i k) hformed

theorem readsBack_member {name : String} (hname : isName name = true) :
    (node a (.member base name)).ReadsBack := by
  refine readsBack_suffix hb hbe hformed rfl (fun _ => '.' :: name.toList)
    (fun i => List.append_assoc ..) (fun i k => ?_) (fun i k hk => ?_)
  · exact breaks_of_sign '.' _ (skip_sign (by simp) _) (tokenEnds_member hname k) (by decide)
  · rw [List.cons_append, skip_sign (by simp)]
    refine .right (.rule (.span (.map (.seq (.seq (.lit rfl))))))
      (.left (.rule (.span (.map (.seq (.sign rfl ?_))))))
    rw [skip_name hname]
    refine yields_propertyName hname hk fun t ht range => ⟨rfl, fun v hv => ?_⟩
    exact ht ▸ builds_member hv t.text range

theorem readsBack_index {key : Tree Unit} (hkey : key.ReadsBack)
    (hkeye : key.kind.isExpression = true) : (node a (.index base key)).ReadsBack := by
  refine readsBack_suffix hb hbe hformed rfl (fun i => '[' :: (key.operand 1 i ++ [']']))
    (fun i => ?_) (fun i k => ?_) (fun i k hk => ?_)
  · have hown : (node a (.index base key)).own i
        = base.operand 10 i ++ ['['] ++ key.operand 1 i ++ [']'] := rfl
    simp [hown]
  · exact breaks_of_sign '[' _ (skip_sign (by simp) _) rfl (by decide)
  · have hmeets := hkey.meets_expression hkeye i (stops_closing (c := ']') (by simp) k)
    rw [List.cons_append, List.append_assoc, List.singleton_append, skip_sign (by simp)]
    refine .right (.rule (.span (.map (.seq (.seq (.lit rfl))))))
      (.right (.rule (.span (.map (.seq (.lit rfl)))))
        (.rule (.span (.map (.seq (.seq (.sign rfl ?_)))))))
    rw [hmeets.skip]
    refine Yields.mono hmeets.reads fun w left hw => ?_
    rw [hw.1, skip_sign (by simp)]
    exact .lit rfl fun range => ⟨rfl, fun v hv => builds_index hv hw.2 range⟩

theorem readsBack_call {arguments : List (Tree Unit)} (h : ∀ t ∈ arguments, t.ReadsBack)
    (he : ∀ t ∈ arguments, t.kind.isExpression = true) :
    (node a (.call base arguments)).ReadsBack := by
  refine readsBack_suffix hb hbe hformed rfl (fun i => '(' ::
    (Layout.list ", ".toList (.expression 1) i (arguments.map layout) ++ [')']))
    (fun i => ?_) (fun i k => ?_) (fun i k hk => ?_)
  · have hown : (node a (.call base arguments)).own i = base.operand 10 i ++ ['(']
        ++ Layout.list ", ".toList (.expression 1) i (arguments.map layout) ++ [')'] := rfl
    rw [hown]
    simp only [List.append_assoc, List.cons_append, List.nil_append]
  · exact breaks_of_sign '(' _ (skip_sign (by simp) _) rfl (by decide)
  · have hlist := meets_optional_commaList (p := rule .expression) (stops_closing (c := ',') (by simp))
      (fun t ht rest hrest => (h t ht).meets_expression (he t ht) i hrest)
      (stops_closing (c := ')') (by simp) k) (skip_sign (by simp) k) rfl
      (refuses_expression_of_close (by simp) k)
    rw [List.cons_append, List.append_assoc, List.singleton_append, skip_sign (by simp)]
    refine .left (.rule (.span (.map (.seq (.seq (.sign rfl ?_))))))
    rw [hlist.skip]
    refine Yields.mono hlist.reads fun ws left hws => ?_
    rw [hws.1, skip_sign (by simp)]
    exact .lit rfl fun range => ⟨rfl, fun v hv => builds_call hv hws.2 range⟩

end Suffixes

end Tree

end Downlevel
