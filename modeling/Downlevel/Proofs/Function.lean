import Downlevel.Proofs.Operand

/-!
# Functions and objects read back

Functions, with their parameters and blocks as bodies, and the properties of objects, among which
methods are functions written without their keyword.
-/

namespace Downlevel

open Lexeme Phrase

/-- The nodes that are printed in a role as they are. -/
def Role.category? : Role → Option Kind.Category
  | .statement => some .statement
  | .declarator => some .declarator
  | .param => some .param
  | .property => some .property
  | .expression _ => none

namespace Tree

variable {a : Unit}

theorem text_eq_own {t : Tree Unit} {role : Role} {c : Kind.Category} (hrole : role.category? = some c)
    (h : decide (t.kind.category = c) = true) (i : Nat) : t.layout.text role i = t.own i := by
  obtain ⟨a, k⟩ := t
  have h : k.category = c := of_decide_eq_true h
  cases role <;> cases hrole <;> simp [Layout.node, Role.layout, h, own]

/-! ## Functions -/

/-- A parameter that is read back. -/
def MeetsParam (t : Tree Unit) : Prop :=
  ∀ i {rest}, Stops 1 rest → (rule .param).Meets (t.layout.text .param i ++ rest) rest (BuildsParam t)

/-- A block that is read back. -/
def MeetsBlock (t : Tree Unit) : Prop :=
  ∀ i rest, (rule .block).Meets (t.layout.text .statement i ++ rest) rest (Builds t)

/-- Parameters that are read back, and may stand together. -/
structure MeetsParams (params : List (Tree Unit)) : Prop where
  meets : ∀ p ∈ params, p.MeetsParam
  formed : ∀ p ∈ params, p.Formed
  last : Kind.paramsFormed (params.map kind) = true

theorem skip_signature (params : List Layout) (body : Layout) (i : Nat) (k : List Char) :
    skip (Layout.signature params body i ++ k) = Layout.signature params body i ++ k :=
  skip_cons rfl (by decide) _

section Signature

variable {params : List (Tree Unit)} (hps : MeetsParams params)
include hps

theorem yields_paramList (i : Nat) (k : List Char) : (rule .params).Yields
    ('(' :: (Layout.list ", ".toList .param i (params.map layout) ++ ')' :: k))
    fun v left => left = k ∧ BuildsAll params v := by
  have hempty : (rule .param).Refuses (')' :: k) := refuses_of_starts 2 rfl rfl
  have hlist := meets_optional_commaList (p := rule .param) (stops_closing (c := ',') (by simp))
    (fun p hp _ hrest => hps.meets p hp i hrest) (stops_closing (c := ')') (by simp) k)
    (skip_sign (by simp) k) rfl hempty
  refine .rule (.map (.seq (.seq (.sign rfl ?_))))
  rw [hlist.skip]
  refine Yields.mono hlist.reads fun vs left hvs => ?_
  rw [hvs.1, skip_sign (by simp)]
  exact .sign rfl ⟨rfl, buildsAll_params hvs.2 hps.formed hps.last⟩

/-- The parameters and the body of a function. -/
theorem yields_signature {body : Tree Unit} (hbody : body.MeetsBlock) (i : Nat) (rest : List Char) :
    (rule .params).Yields (Layout.signature (params.map layout) body.layout i ++ rest)
      fun ps left => BuildsAll params ps ∧ (rule .block).Reads (skip left) rest (Builds body) := by
  have hcs : Layout.signature (params.map layout) body.layout i ++ rest
      = '(' :: (Layout.list ", ".toList .param i (params.map layout)
        ++ ')' :: ' ' :: (body.layout.text .statement i ++ rest)) := by
    rw [Layout.signature]
    simp only [List.append_assoc]
    rfl
  rw [hcs]
  refine Yields.mono (yields_paramList hps i _) ?_
  rintro ps _ ⟨rfl, hps⟩
  refine ⟨hps, ?_⟩
  rw [skip_space, (hbody i rest).skip]
  exact (hbody i rest).reads

end Signature

theorem readsBack_functionExpression {name : Option String}
    (hname : ∀ x ∈ name, isIdentifier x = true) {params : List (Tree Unit)}
    (hps : MeetsParams params) {body : Tree Unit} (hbody : body.MeetsBlock) :
    (node a (.functionExpression name params body)).ReadsBack := by
  have hown : ∀ i k, (node a (.functionExpression name params body)).own i ++ k = "function".toList
      ++ ' ' :: ((name.getD "").toList ++ (Layout.signature (params.map layout) body.layout i ++ k)) := by
    intro i k
    have : (node a (.functionExpression name params body)).own i = "function ".toList
        ++ (name.getD "").toList ++ Layout.signature (params.map layout) body.layout i := rfl
    simp [this]
  refine ReadsBack.of_level 11 rfl (by decide) (fun i rest hrest => ?_) (fun i k _ => ?_)
  · have hsignature : ∀ token : Option Token, token.map Token.text = name →
        (rule .params).Yields (Layout.signature (params.map layout) body.layout i ++ rest)
          fun ps left => (rule .block).Yields (skip left) fun b left => ∀ range, skip left = skip rest ∧
            Builds (node a (.functionExpression name params body))
              (Build.functionExpression token ps b range) := by
      rintro token rfl
      refine Yields.mono (yields_signature hps hbody i rest) fun ps left hps => ?_
      exact Yields.mono hps.2 fun b left hb range =>
        ⟨hb.1, builds_functionExpression token hps.1 hb.2 range⟩
    rw [hown]
    refine .left (.rule (.span (.seq (.seq (.map (.seq (.rule (yields_keyword (by decide) rfl ?_))))))))
    rw [skip_space]
    cases name with
    | none =>
      refine (skip_signature _ _ i rest).symm ▸ .missing (.rule (refuses_token ?_)) ?_
      · exact identifier_eq_none rfl _
      · rw [skip_signature]
        exact hsignature none rfl
    | some x =>
      have hx := hname x rfl
      refine (skip_identifier hx _).symm ▸ .present (yields_identifier hx rfl fun token ht => ?_)
      rw [skip_signature]
      exact hsignature (some token) (by simp [ht])
  · have hid := identifier_eq_none_of_keyword (w := "function") (by decide)
      (word_append (by decide) (rfl : tokenEnds (' ' :: ((name.getD "").toList
        ++ (Layout.signature (params.map layout) body.layout i ++ k))) = true))
    rw [hown]
    exact leading_of_word rfl hid

/-! ## Arrow functions -/

/-- An expression in parentheses where an expression is expected. -/
theorem ReadsBack.parenthesized_expression {e : Tree Unit} (h : e.ReadsBack) (i : Nat)
    {rest : List Char} (hrest : Stops 1 rest) :
    (level 1).Reads ('(' :: (e.own i ++ [')']) ++ rest) rest (Builds e) := by
  have hhead : arrowHead.Refuses ('(' :: (e.own i ++ [')']) ++ rest) := by
    rw [List.cons_append, List.append_assoc]
    exact h.group i (isPrefixOf_append_eq_false (hrest.stops "=" (by decide)) ['>'])
  have hlead : Leading ('(' :: (e.own i ++ [')']) ++ rest) :=
    .sign (identifier_eq_none rfl _) ⟨'(', _, rfl, by decide⟩ hhead
  refine Reads.assignment ?_ hrest hlead.arrowFunction
  exact (h.parenthesized i rest).weaken (q := 11) le_rfl (by decide) le_rfl (hrest.mono (by decide))

/-- An expression as the body of an arrow function gets parentheses if it would be read as a
block. -/
def arrowBodyText (body : Tree Unit) (i : Nat) : List Char :=
  if body.kind.isBlock then body.layout.text .statement i
  else Downlevel.parenthesized startsWithBrace (body.operand 1 i)

theorem meets_arrowBody_block {body : Tree Unit} (hb : body.kind.isBlock = true)
    (h : body.MeetsBlock) (i : Nat) (rest : List Char) :
    (rule .arrowBody).Meets (arrowBodyText body i ++ rest) rest (Builds body) := by
  rw [arrowBodyText, if_pos hb]
  exact ⟨(h i rest).skip, .rule (.left (h i rest).reads)⟩

theorem meets_arrowBody_expression {body : Tree Unit} (hb : body.kind.isBlock = false)
    (h : body.ReadsBack) (he : body.kind.isExpression = true) (i : Nat) {rest : List Char}
    (hrest : Stops 1 rest) :
    (rule .arrowBody).Meets (arrowBodyText body i ++ rest) rest (Builds body) := by
  have hopen := h.opening_operand he 1 i rest
  rw [arrowBodyText, if_neg (by simp [hb]), Downlevel.parenthesized]
  split
  · rw [operand_of_le he body.kind.precedence_bounds.1]
    exact ⟨skip_sign (by simp) _, .rule (.right (refuses_of_starts 1 rfl rfl)
      (h.parenthesized_expression i hrest))⟩
  · rename_i hbrace
    have hbrace : ['\x7b'].isPrefixOf (body.operand 1 i ++ rest) = false := by
      have hlen : ['\x7b'].length ≤ (body.operand 1 i).length := h.length_operand he 1 i
      rw [isPrefixOf_append_of_length_le rest hlen]
      exact Bool.not_eq_true _ ▸ hbrace
    exact ⟨hopen.skip, .rule (.right (.rule (.span (.map (.seq (.seq (.lit hbrace))))))
      (h.operand he (by decide) (by decide) i hrest))⟩

theorem own_arrowFunction (params : List (Tree Unit)) (body : Tree Unit) (i : Nat) (k : List Char) :
    (node a (.arrowFunction params body)).own i ++ k
      = '(' :: (Layout.list ", ".toList .param i (params.map layout)
        ++ ')' :: ' ' :: '=' :: '>' :: ' ' :: (arrowBodyText body i ++ k)) := by
  have hown : (node a (.arrowFunction params body)).own i
      = "(".toList ++ Layout.list ", ".toList .param i (params.map layout) ++ ") => ".toList
        ++ if body.layout.isBlock then body.layout.text .statement i
          else Downlevel.parenthesized startsWithBrace (body.operand 1 i) := rfl
  rw [hown, isBlock_layout, ← arrowBodyText]
  simp only [List.append_assoc]
  rfl

theorem readsBack_arrowFunction {params : List (Tree Unit)} (hps : MeetsParams params)
    {body : Tree Unit} (hbody : ∀ i {rest}, Stops 1 rest →
      (rule .arrowBody).Meets (arrowBodyText body i ++ rest) rest (Builds body)) :
    (node a (.arrowFunction params body)).ReadsBack := by
  refine ⟨fun i rest hrest => ?_, fun h => absurd h (show ¬ 2 ≤ 1 by decide),
    fun h => absurd h (show 1 ≠ 10 by decide), fun h => absurd h (by simp [mimics]),
    fun h => absurd h (by simp [isArrow]), fun i mid _ => ?_⟩
  · rw [own_arrowFunction]
    refine .rule (.left (.rule (.span (.seq (.map (.seq (.rule (.right
      (.map (.rule (refuses_token (identifier_eq_none rfl _))))
      (Yields.mono (yields_paramList hps i _) ?_)))))))))
    rintro ps _ ⟨rfl, hps⟩
    rw [skip_space, skip_sign (by simp)]
    refine .lit (show _ = "=>".toList ++ ' ' :: (arrowBodyText body i ++ rest) from rfl) ?_
    rw [skip_space, (hbody i hrest).skip]
    exact Yields.mono (hbody i hrest).reads fun v left hv range =>
      ⟨hv.1, builds_arrowFunction hps hv.2 range⟩
  · rw [own_arrowFunction]
    have hopen : ∀ cs, Opening ('(' :: cs) := fun cs => ⟨'(', cs, rfl, by decide⟩
    exact .seq (refuses_params_of_refuses (hopen _)
      (refuses_param_of_sign (identifier_eq_none rfl _) (hopen _)))

/-! ## Properties -/

/-- What may follow a property. -/
structure EndsProperty (rest : List Char) : Prop where
  stops : Stops 1 rest
  colon : [':'].isPrefixOf (skip rest) = false

/-- A property that is read back. -/
def MeetsProperty (t : Tree Unit) : Prop :=
  ∀ i {rest}, EndsProperty rest →
    property.Meets (t.layout.text .property i ++ rest) rest (Builds t)

theorem skip_key {key : PropertyKey} (hkey : key.formed = true) (k : List Char) :
    skip (key.text.toList ++ k) = key.text.toList ++ k := by
  cases key with
  | identifier name => exact skip_name hkey k
  | string raw =>
    have htext : (PropertyKey.string raw).text.toList = '"' :: (raw.toList ++ ['"']) := by
      simp [PropertyKey.text]
    rw [htext]
    exact skip_sign (by simp) _

theorem yields_propertyKey {key : PropertyKey} (hkey : key.formed = true) {k : List Char}
    (hk : tokenEnds k = true) {Q : PropertyKey → List Char → Prop} (hQ : Q key k) :
    (rule .propertyKey).Yields (key.text.toList ++ k) Q := by
  cases key with
  | identifier name =>
    have hname : (rule .string).Refuses (name.toList ++ k) := by
      obtain ⟨c, s, hs, hc⟩ := exists_cons_of_isName hkey
      rw [hs]
      exact refuses_string hc
    exact .rule (.right (.map hname) (.map (yields_propertyName hkey hk fun t ht => ht ▸ hQ)))
  | string raw =>
    have htext : (PropertyKey.string raw).text.toList ++ k = '"' :: (raw.toList ++ '"' :: k) := by
      simp [PropertyKey.text]
    rw [htext]
    exact .rule (.left (.map (yields_string hkey fun t ht => ht ▸ hQ)))

theorem meetsProperty_keyed {key : PropertyKey} (hkey : key.formed = true) {value : Tree Unit}
    (h : value.ReadsBack) (he : value.kind.isExpression = true) :
    (node a (.property key value false false)).MeetsProperty := by
  intro i rest hrest
  have htext : (node a (.property key value false false)).layout.text .property i ++ rest
      = key.text.toList ++ ':' :: ' ' :: (value.operand 1 i ++ rest) := by
    rw [text_eq_own rfl rfl]
    have hown : (node a (.property key value false false)).own i
        = key.text.toList ++ ": ".toList ++ value.operand 1 i := rfl
    simp [hown]
  have hmeets := h.meets_expression he i hrest.stops
  have hcolon : skip (':' :: ' ' :: (value.operand 1 i ++ rest))
      = ':' :: ' ' :: (value.operand 1 i ++ rest) := skip_sign (by simp) _
  rw [htext]
  refine ⟨skip_key hkey _, .right (.rule (.span (.seq (.seq_right (.map (yields_propertyKey hkey rfl
    ?_)))))) (.left (.rule (.span (.seq (.map (.seq (yields_propertyKey hkey rfl ?_)))))))⟩
  · rw [hcolon]
    exact refuses_params rfl
  · rw [hcolon]
    refine .sign rfl ?_
    rw [skip_space, hmeets.skip]
    exact Yields.mono hmeets.reads fun v left hv range =>
      ⟨hv.1, builds_keyedProperty key hv.2 range⟩

theorem meetsProperty_shorthand {b : Unit} {x : String} (hx : isIdentifier x = true) :
    (node a (.property (.identifier x) (node b (.identifier x)) true false)).MeetsProperty := by
  intro i rest hrest
  have htext : (node a (.property (.identifier x) (node b (.identifier x)) true false)).layout.text
      .property i = x.toList := by
    rw [text_eq_own rfl rfl]
    have hown : (node a (.property (.identifier x) (node b (.identifier x)) true false)).own i
        = Layout.property (.identifier x) (node b (.identifier x)).layout true false i := rfl
    rw [hown]
    unfold Layout.property
    exact if_pos (by rw [name?_layout]; simp [PropertyKey.name, Kind.identifierName?])
  have hkey : (PropertyKey.identifier x).formed = true := isName_of_isIdentifier hx
  have hparams : (rule .params).Refuses (skip rest) :=
    refuses_params (hrest.stops.stops "(" (by decide))
  have hmethod : (rule .methodProperty).Refuses (x.toList ++ rest) :=
    .rule (.span (.seq (.seq_right (.map (yields_propertyKey hkey hrest.stops.ends hparams)))))
  have hkeyed : (rule .keyedProperty).Refuses (x.toList ++ rest) :=
    .rule (.span (.seq (.map (.seq_right
      (yields_propertyKey hkey hrest.stops.ends (.lit hrest.colon))))))
  rw [htext]
  exact ⟨skip_identifier hx _, .right hmethod (.right hkeyed (.rule (.span (.map
    (yields_identifier hx hrest.stops.ends fun t ht range =>
      ⟨rfl, ht ▸ builds_shorthandProperty t range⟩)))))⟩

theorem meetsProperty_method {key : PropertyKey} (hkey : key.formed = true) {b : Unit}
    {params : List (Tree Unit)} (hps : MeetsParams params) {body : Tree Unit}
    (hbody : body.MeetsBlock) :
    (node a (.property key (node b (.functionExpression none params body)) false true)).MeetsProperty := by
  intro i rest hrest
  have htext : (node a (.property key (node b (.functionExpression none params body)) false
      true)).layout.text .property i
        = key.text.toList ++ Layout.signature (params.map layout) body.layout i := by
    rw [text_eq_own rfl rfl]
    have hown : (node a (.property key (node b (.functionExpression none params body)) false true)).own i
        = Layout.property key (node b (.functionExpression none params body)).layout false true i := rfl
    rw [hown, layout_node]
    rfl
  rw [htext, List.append_assoc]
  refine ⟨skip_key hkey _, .left (.rule (.span (.seq (.seq (.map (yields_propertyKey hkey rfl ?_))))))⟩
  rw [skip_signature]
  refine Yields.mono (yields_signature hps hbody i rest) fun ps left hps => ?_
  exact Yields.mono hps.2 fun v left hv range => ⟨hv.1, builds_methodProperty key hps.1 hv.2 range⟩

/-! ## Objects -/

theorem endsProperty_comma (cs : List Char) : EndsProperty (',' :: cs) :=
  ⟨stops_closing (by simp) cs, by rw [skip_sign (by simp)]; rfl⟩

theorem stops_blank {rest : List Char} (hrest : Stops 1 rest) : Stops 1 (' ' :: rest) :=
  ⟨rfl, fun s hs => by rw [skip_space]; exact hrest.stops s hs⟩

/-- At a brace, only an object can be an operand. -/
theorem yields_primary_of_brace {cs : List Char} {Q : Built → List Char → Prop}
    (h : (rule .object).Yields ('\x7b' :: cs) Q) : primary.Yields ('\x7b' :: cs) Q :=
  .right (refuses_of_starts 2 rfl rfl) <| .right (.seq (.seq (.lit rfl)))
    <| .right (refuses_of_starts 1 rfl rfl) <| .right (.map (.rule (refuses_token rfl)))
    <| .right (.map (.rule (refuses_token rfl))) <| .right (.map (.rule (refuses_token rfl)))
    <| .right (.map (.rule (refuses_token rfl))) <| .right (.map (.rule (refuses_token rfl)))
    <| .right (.rule (.span (.map (.seq (.seq (.lit rfl)))))) <| .left h

theorem readsBack_object {properties : List (Tree Unit)}
    (h : ∀ t ∈ properties, t.MeetsProperty) : (node a (.object properties)).ReadsBack := by
  have hbrace : ∀ k, skip ('\x7d' :: k) = '\x7d' :: k := skip_sign (by simp)
  refine ReadsBack.of_level 11 rfl (by decide) (fun i rest hrest => ?_) (fun i k _ => ?_)
  · cases properties with
    | nil =>
      have hown : (node a (.object [])).own i ++ rest = '\x7b' :: '\x7d' :: rest := rfl
      have hempty : property.Refuses ('\x7d' :: rest) := refuses_of_starts 3 rfl rfl
      rw [hown]
      refine yields_primary_of_brace (.rule (.span (.map (.seq (.seq (.sign rfl ?_))))))
      rw [hbrace]
      refine .missing (.seq (.seq (.map hempty))) ?_
      rw [hbrace]
      exact .sign rfl fun range => ⟨rfl, builds_object .nil range⟩
    | cons t ts =>
      have hown : (node a (.object (t :: ts))).own i ++ rest = '\x7b' :: ' ' ::
          (Layout.list ", ".toList .property i ((t :: ts).map layout) ++ ' ' :: '\x7d' :: rest) := by
        have : (node a (.object (t :: ts))).own i = "\x7b ".toList
            ++ Layout.list ", ".toList .property i ((t :: ts).map layout) ++ " \x7d".toList := rfl
        rw [this]
        simp only [List.append_assoc]
        rfl
      have hends : EndsProperty (' ' :: '\x7d' :: rest) :=
        ⟨stops_blank (stops_closing (by simp) rest), by rw [skip_space, hbrace]; rfl⟩
      have hlist := meets_commaList endsProperty_comma (fun t ht _ hrest => h t ht i hrest) hends
        (by rw [skip_space, hbrace]; rfl)
      rw [hown]
      refine yields_primary_of_brace (.rule (.span (.map (.seq (.seq (.sign rfl ?_))))))
      rw [skip_space, hlist.skip]
      refine .present (.seq (Yields.mono hlist.reads fun vs left hvs => ?_))
      rw [hvs.1, skip_space, hbrace]
      refine .missing (.lit rfl) ?_
      rw [hbrace]
      exact .sign rfl fun range => ⟨rfl, builds_object hvs.2 range⟩
  · have hown : ∃ tail, (node a (.object properties)).own i ++ k = '\x7b' :: tail := by
      cases properties <;> exact ⟨_, rfl⟩
    obtain ⟨tail, htail⟩ := hown
    rw [htail]
    exact leading_of_sign rfl (by decide) (by decide) _

end Tree

end Downlevel
