import Downlevel.Proofs.Expression

/-!
# Operands read back

Names, literals, arrays and templates are read back where an operand is expected, whatever follows
them that does not go on with their last word.
-/

namespace Downlevel

open Lexeme Phrase

namespace Tree

variable {a : Unit}

/-! ## Words -/

/-- What an operand may be if it starts with a word. -/
def wordOperand : Phrase Built :=
  leaf (rule .boolean) (fun text => .boolean (text = "true")) <|>
    leaf (rule .null) (fun _ => .null) <|> leaf (rule .this) (fun _ => .this) <|>
    rule .array <|> rule .object <|> leaf (rule .identifier) .identifier

theorem identifier_eq_none_of_keyword {w : String} (hw : w ∈ keywords) {cs : List Char}
    (h : word cs = w.toList) : identifier cs = none := by
  have hany : keywords.any (fun w => w.toList = word cs) = true :=
    List.any_eq_true.mpr ⟨w, hw, by simp [h]⟩
  rw [identifier, if_pos hany]

/-- A word that is a literal. -/
theorem readsBack_word {e : Tree Unit} (hp : e.kind.precedence = 11) {w : String}
    (hw : w ∈ ["true", "false", "null", "this"]) (hown : ∀ i, e.own i = w.toList)
    (h : ∀ {rest}, tokenEnds rest = true → wordOperand.Reads (w.toList ++ rest) rest (Builds e)) :
    e.ReadsBack := by
  have hwords : ∀ w ∈ ["true", "false", "null", "this"], w.toList.head?.any isNameStart = true ∧
      word w.toList = w.toList ∧ w ∈ keywords ∧ w ≠ "function" := by decide
  obtain ⟨hstart, hword, hkey, hfun⟩ := hwords w hw
  have hwordk {k : List Char} (hk : tokenEnds k = true) : word (w.toList ++ k) = w.toList :=
    word_append hword hk
  cases hc : w.toList with
  | nil => simp [hc] at hstart
  | cons c s =>
    have hstart : isNameStart c = true := by simpa [hc] using hstart
    refine ReadsBack.of_level 11 hp (by decide) (fun i rest hrest => ?_) (fun i k hk => ?_)
    · have hread := h hrest.ends
      have hne : word (w.toList ++ rest) ≠ "function".toList := fun hcs =>
        hfun (String.toList_inj.mp ((hwordk hrest.ends).symm.trans hcs))
      rw [hown]
      rw [hc] at hread hne ⊢
      exact yields_primary_of_word hstart hne hread
    · have hid := identifier_eq_none_of_keyword hkey (hwordk hk)
      rw [hown]
      rw [hc] at hid ⊢
      exact leading_of_word hstart hid

theorem boolean_append (value : Bool) {rest : List Char} (hrest : tokenEnds rest = true) :
    (Lexeme.keyword "true" ((if value then "true" else "false").toList ++ rest) <|>
      Lexeme.keyword "false" ((if value then "true" else "false").toList ++ rest))
        = some (if value then "true" else "false").toList.length := by
  have htrue : Lexeme.keyword "true" ("true".toList ++ rest) = some 4 :=
    keyword_append (by decide) hrest
  have hfalse : Lexeme.keyword "false" ("false".toList ++ rest) = some 5 :=
    keyword_append (by decide) hrest
  have hno : Lexeme.keyword "true" ("false".toList ++ rest) = none := by
    rw [Lexeme.keyword, word_append (by decide) hrest, if_neg (by decide)]
  cases value with
  | true => exact (congrArg (· <|> _) htrue).trans rfl
  | false =>
    show (Lexeme.keyword "true" ("false".toList ++ rest) <|>
      Lexeme.keyword "false" ("false".toList ++ rest)) = _
    rw [hno, hfalse]
    rfl

theorem yields_boolean {value : Bool} {rest : List Char} (hrest : tokenEnds rest = true)
    {Q : Token → List Char → Prop}
    (hQ : ∀ t : Token, decide (t.text = "true") = value → Q t rest) :
    (rule .boolean).Yields ((if value then "true" else "false").toList ++ rest) Q :=
  .rule (yields_token (boolean_append value hrest) fun t ht => hQ t (by
    rw [ht]
    cases value <;> simp))

theorem readsBack_boolean (value : Bool) : (node a (.boolean value)).ReadsBack :=
  readsBack_word rfl (by cases value <;> simp) (fun _ => rfl) fun hrest =>
    .left (.map (yields_boolean hrest fun t ht => ⟨rfl, builds_node (by simp [Kind.map, ht])⟩))

theorem refuses_boolean {cs : List Char} (htrue : word cs ≠ "true".toList)
    (hfalse : word cs ≠ "false".toList) : (rule .boolean).Refuses cs := by
  refine .rule (refuses_token ?_)
  rw [Lexeme.keyword, Lexeme.keyword, if_neg htrue, if_neg hfalse]
  rfl

theorem readsBack_null : (node a .null).ReadsBack := by
  refine readsBack_word rfl (w := "null") (by simp) (fun _ => rfl) fun {rest} hrest => ?_
  have hword : word ("null".toList ++ rest) = "null".toList := word_append (by decide) hrest
  refine .right (.map (refuses_boolean (by rw [hword]; decide) (by rw [hword]; decide)))
    (.left (.map (.rule (yields_token (keyword_append (by decide) hrest) fun t _ => ?_))))
  exact ⟨rfl, builds_node rfl⟩

theorem readsBack_this : (node a .this).ReadsBack := by
  refine readsBack_word rfl (w := "this") (by simp) (fun _ => rfl) fun {rest} hrest => ?_
  have hword : word ("this".toList ++ rest) = "this".toList := word_append (by decide) hrest
  have hnull : word ("this".toList ++ rest) ≠ "null".toList := by rw [hword]; decide
  refine .right (.map (refuses_boolean (by rw [hword]; decide) (by rw [hword]; decide)))
    (.right (.map (.rule (refuses_token (if_neg hnull))))
      (.left (.map (.rule (yields_token (keyword_append (by decide) hrest) fun t _ => ?_)))))
  exact ⟨rfl, builds_node rfl⟩

/-- A name is not one of the keywords. -/
theorem word_identifier_ne {x : String} (hx : isIdentifier x = true) {rest : List Char}
    (hrest : tokenEnds rest = true) {w : String} (hw : w ∈ keywords) :
    word (x.toList ++ rest) ≠ w.toList := by
  intro hcs
  have hnone := identifier_eq_none_of_keyword hw hcs
  have hsome : identifier x.toList = some x.toList.length := by simpa [isIdentifier] using hx
  rw [identifier_append hsome hrest] at hnone
  cases hnone

theorem reads_identifier {x : String} (hx : isIdentifier x = true) {rest : List Char}
    (hrest : tokenEnds rest = true) :
    primary.Reads (x.toList ++ rest) rest (Builds (node () (.identifier x))) := by
  have hne {w : String} (hw : w ∈ keywords) := word_identifier_ne hx hrest hw
  have hleaf : (leaf (rule .identifier) .identifier).Reads (x.toList ++ rest) rest
      (Builds (node () (.identifier x))) :=
    .map (yields_identifier hx hrest fun t ht => ⟨rfl, ht ▸ builds_node rfl⟩)
  obtain ⟨c, s, hs, hc⟩ := exists_cons_of_isName (isName_of_isIdentifier hx)
  simp only [hs] at hne hleaf ⊢
  refine yields_primary_of_word hc (hne (by decide))
    <| .right (.map (refuses_boolean (hne (by decide)) (hne (by decide))))
    <| .right (.map (.rule (refuses_token (if_neg (hne (by decide))))))
    <| .right (.map (.rule (refuses_token (if_neg (hne (by decide))))))
    <| .right (.rule (.span (.map (.seq (.seq (refuses_sign hc rfl rfl))))))
    <| .right (.rule (.span (.map (.seq (.seq (refuses_sign hc rfl rfl)))))) hleaf

theorem readsBack_identifier {x : String} (hx : isIdentifier x = true) :
    (node a (.identifier x)).ReadsBack where
  own i _ hrest := reads_identifier hx hrest.ends
  chain _ h := absurd h (show ¬ 11 ≤ 7 by decide)
  suffix h := absurd h (show 11 ≠ 10 by decide)
  leading h := absurd h (by simp [mimics])
  arrow _ i rest hrest := by
    have hno : Refuses (Peg.lit "=>") (skip rest) :=
      .lit (isPrefixOf_append_eq_false (hrest.stops "=" (by decide)) ['>'])
    exact .rule (.span (.seq (.map (.seq_right (.rule (.left (.map
      (yields_identifier hx hrest.ends fun _ _ => hno))))))))
  group i mid hmid := by
    have hinit : init.Refuses (skip (')' :: mid)) := by
      rw [skip_sign (by simp)]
      exact .seq (.lit rfl)
    exact refuses_arrowHead (skip_identifier hx _) (reads_param_name hx rfl hinit) hmid

/-! ## Literals -/

theorem exists_cons_of_isNumber {raw : String} (h : isNumber raw = true) :
    ∃ c s, raw.toList = c :: s ∧ c.isDigit = true := by
  have h : Lexeme.number raw.toList = some raw.toList.length := by simpa [isNumber] using h
  cases hs : raw.toList with
  | nil => simp [hs, Lexeme.number, Lexeme.digits] at h
  | cons c s =>
    refine ⟨c, s, rfl, ?_⟩
    by_contra hc
    simp [hs, Lexeme.number, Lexeme.digits, hc] at h

theorem readsBack_number {raw : String} (hraw : isNumber raw = true) :
    (node a (.number raw)).ReadsBack := by
  obtain ⟨c, s, hs, hc⟩ := exists_cons_of_isNumber hraw
  have hne {d : Char} (hd : d.isDigit = false) : d ≠ c := by
    rintro rfl
    simp [hc] at hd
  have hname : isNameStart c = false := by
    by_contra hstart
    simp [isDigit_of_isNameStart (Bool.not_eq_false _ ▸ hstart)] at hc
  refine ReadsBack.of_level 11 rfl (by decide) (fun i rest hrest => ?_) (fun i k _ => ?_)
  · have hfun : word (raw.toList ++ rest) ≠ "function".toList := by
      intro hcs
      obtain ⟨tail, htail⟩ : ∃ tail, raw.toList ++ rest = 'f' :: tail := exists_cons_of_word hcs
      rw [hs, List.cons_append, List.cons.injEq] at htail
      exact hne rfl htail.1.symm
    have hsign {d : Char} (hd : d.isDigit = false) : [d].isPrefixOf (raw.toList ++ rest) = false := by
      rw [hs]
      exact isPrefixOf_cons_eq_false (by simpa using hne hd) (by simp) _
    refine .right (.rule (.span (.seq (.seq (.map (.seq (.rule (refuses_keyword hfun))))))))
      <| .right (.seq (.seq (.lit (hsign rfl))))
      <| .right (.rule (.span (.map (.tight (.lit (hsign rfl))))))
      <| .left (.map (yields_number hraw hrest.ends fun t ht => ⟨rfl, ht ▸ builds_node rfl⟩))
  · have hall : ∀ d ∈ [' ', '\t', '\r', '\n', '/', '*', ')', ']', '\x7d', ',', ';', '.', '=', '>'],
        d.isDigit = false := by
      simp only [List.forall_mem_cons, List.not_mem_nil, false_implies, implies_true]
      decide
    have hown : (node a (.number raw)).own i = c :: s := hs
    rw [hown]
    exact leading_of_sign hname (fun hmem => hne (hall c hmem) rfl) (hne rfl).symm _

theorem readsBack_string {raw : String} (hraw : isStringContents raw = true) :
    (node a (.string raw)).ReadsBack := by
  have hown : ∀ i k, (node a (.string raw)).own i ++ k = '"' :: (raw.toList ++ '"' :: k) := by
    intro i k
    have : (node a (.string raw)).own i = ['"'] ++ raw.toList ++ ['"'] := rfl
    simp [this]
  refine ReadsBack.of_level 11 rfl (by decide) (fun i rest hrest => ?_) (fun i k _ => ?_)
  · rw [hown]
    refine .right (refuses_of_starts 2 rfl rfl) <| .right (.seq (.seq (.lit rfl)))
      <| .right (refuses_of_starts 1 rfl rfl) <| .right (.map (.rule (refuses_token rfl)))
      <| .left (.map (yields_string hraw fun t ht => ⟨rfl, ht ▸ builds_node rfl⟩))
  · rw [hown]
    exact leading_of_sign rfl (by decide) (by decide) _

theorem readsBack_array {elements : List (Tree Unit)} (h : ∀ t ∈ elements, t.ReadsBack)
    (he : ∀ t ∈ elements, t.kind.isExpression = true) : (node a (.array elements)).ReadsBack := by
  have hown : ∀ i k, (node a (.array elements)).own i ++ k
      = '[' :: (Layout.list ", ".toList (.expression 1) i (elements.map layout) ++ ']' :: k) := by
    intro i k
    have : (node a (.array elements)).own i = ['[']
        ++ Layout.list ", ".toList (.expression 1) i (elements.map layout) ++ [']'] := rfl
    rw [this]
    simp only [List.append_assoc, List.cons_append, List.nil_append]
  refine ReadsBack.of_level 11 rfl (by decide) (fun i rest hrest => ?_) (fun i k _ => ?_)
  · have hlist := meets_optional_trailing (p := rule .expression) (stops_closing (c := ',') (by simp))
      (fun t ht rest hrest => (h t ht).meets_expression (he t ht) i hrest)
      (stops_closing (c := ']') (by simp) rest) (skip_sign (by simp) rest) rfl
      (refuses_expression_of_close (by simp) rest)
    rw [hown]
    refine .right (refuses_of_starts 2 rfl rfl) <| .right (.seq (.seq (.lit rfl)))
      <| .right (refuses_of_starts 1 rfl rfl) <| .right (.map (.rule (refuses_token rfl)))
      <| .right (.map (.rule (refuses_token rfl))) <| .right (.map (.rule (refuses_token rfl)))
      <| .right (.map (.rule (refuses_token rfl))) <| .right (.map (.rule (refuses_token rfl)))
      <| .left (.rule (.span (.map (.seq (.seq (.sign rfl ?_))))))
    rw [hlist.skip]
    refine Yields.mono hlist.reads fun vs left hvs => ?_
    rw [hvs.1, skip_sign (by simp)]
    exact .sign rfl fun range => ⟨rfl, builds_array hvs.2 range⟩
  · rw [hown]
    exact leading_of_sign rfl (by decide) (by decide) _

/-! ## Templates -/

/-- A substitution is read up to its brace, and nothing is skipped after it. -/
theorem yields_substitution {t : Tree Unit} (h : t.ReadsBack) (he : t.kind.isExpression = true)
    (i : Nat) (rest : List Char) : (rule .templateSubstitution).Yields
      ('$' :: '\x7b' :: (t.operand 1 i ++ '\x7d' :: rest))
      fun part left => (∃ v, part = .substitution v ∧ Builds t v) ∧ left = rest := by
  have hmeets := h.meets_expression he i (stops_closing (c := '\x7d') (by simp) rest)
  refine .rule (.map (.seq (.seq (.lit (show _ = "$\x7b".toList ++
    (t.operand 1 i ++ '\x7d' :: rest) from rfl) ?_))))
  rw [hmeets.skip]
  refine Yields.mono hmeets.reads fun v left hv => ?_
  rw [hv.1, skip_sign (by simp)]
  exact .sign rfl ⟨⟨v, rfl, hv.2⟩, rfl⟩

/-- The text before a substitution or the end of the template is read as one part, unless it is
empty. -/
theorem yields_templateText {text : String} (htext : isTemplateText text = true) {rest : List Char}
    (hrest : templateText rest = 0) (hbrace : ∀ cs, rest ≠ '\x7b' :: cs)
    {Q : List TemplatePart → List Char → Prop}
    (hQ : Yields (.manyTight id (rule .templateChars <|> rule .templateSubstitution)) rest
      fun parts left => Q (if text = "" then parts else .chars text :: parts) left) :
    Yields (.manyTight id (rule .templateChars <|> rule .templateSubstitution)) (text.toList ++ rest)
      Q := by
  by_cases hempty : text = ""
  · subst hempty
    exact hQ
  · simp only [if_neg hempty] at hQ
    have hlen : templateText (text.toList ++ rest) = text.toList.length :=
      templateText_append (by simpa [isTemplateText] using htext) hrest hbrace
    have hscan : templateChars (text.toList ++ rest) = some text.toList.length := by
      have hpos : text.toList.length ≠ 0 := by simpa using hempty
      unfold templateChars
      rw [hlen]
      split
      · contradiction
      · rfl
    refine Yields.manyTight_cons rfl (.left (.rule (.lexeme hscan ?_)))
    rw [List.take_left, List.drop_left, String.ofList_toList]
    exact hQ

theorem templateChars_eq_none {cs : List Char} (h : templateText cs = 0) :
    templateChars cs = none := by
  simp [templateChars, h]

theorem yields_templateParts (i : Nat) (rest : List Char) :
    ∀ {ts : List (Tree Unit)} {texts : List String}, texts.length = ts.length + 1 →
      (∀ text ∈ texts, isTemplateText text = true) → (∀ t ∈ ts, t.ReadsBack) →
      (∀ t ∈ ts, t.kind.isExpression = true) →
      Yields (.manyTight id (rule .templateChars <|> rule .templateSubstitution))
        (Layout.template i (ts.map layout) texts ++ '`' :: rest)
        fun parts left => BuildsParts texts ts parts ∧ left = '`' :: rest
  | [], [text], _, htexts, _, _ => by
    have hcs : Layout.template i [] [text] ++ '`' :: rest = text.toList ++ '`' :: rest := by
      simp [Layout.template]
    have hend : templateText ('`' :: rest) = 0 := by simp [templateText]
    have hstop : Refuses (rule .templateChars <|> rule .templateSubstitution) ('`' :: rest) :=
      .choice (.rule (.lexeme (templateChars_eq_none hend))) (.rule (.map (.seq (.seq (.lit rfl)))))
    rw [List.map_nil, hcs]
    refine yields_templateText (htexts text (by simp)) hend (by simp) (.manyTight_nil hstop ⟨?_, rfl⟩)
    split
    · exact .last ‹_›
    · exact .lastChars
  | t :: ts, text :: texts, hlen, htexts, h, he => by
    have hcs : Layout.template i (List.map layout (t :: ts)) (text :: texts) ++ '`' :: rest
        = text.toList ++ '$' :: '\x7b' :: (t.operand 1 i ++ '\x7d' ::
          (Layout.template i (ts.map layout) texts ++ '`' :: rest)) := by
      simp [Layout.template, operand, Precedence.assign]
    have hend : ∀ cs, templateText ('$' :: '\x7b' :: cs) = 0 := fun cs => by simp [templateText]
    have ih := yields_templateParts i rest (by simpa using hlen)
      (fun text ht => htexts text (List.mem_cons_of_mem _ ht))
      (fun t ht => h t (List.mem_cons_of_mem _ ht)) (fun t ht => he t (List.mem_cons_of_mem _ ht))
    rw [hcs]
    refine yields_templateText (htexts text (by simp)) (hend _) (by simp) ?_
    refine Yields.manyTight_cons rfl (.right (.rule (.lexeme (templateChars_eq_none (hend _))))
      (Yields.mono (yields_substitution (h t (by simp)) (he t (by simp)) i _) ?_))
    rintro _ _ ⟨⟨v, rfl, hv⟩, rfl⟩
    refine Yields.mono ih fun parts left hparts => ⟨?_, hparts.2⟩
    split
    · exact .value ‹_› hv hparts.1
    · exact .charsValue hv hparts.1

theorem readsBack_template {texts : List String} {ts : List (Tree Unit)}
    (hlen : texts.length = ts.length + 1) (htexts : ∀ text ∈ texts, isTemplateText text = true)
    (h : ∀ t ∈ ts, t.ReadsBack) (he : ∀ t ∈ ts, t.kind.isExpression = true) :
    (node a (.template texts ts)).ReadsBack := by
  have hown : ∀ i k, (node a (.template texts ts)).own i ++ k
      = '`' :: (Layout.template i (ts.map layout) texts ++ '`' :: k) := by
    intro i k
    have : (node a (.template texts ts)).own i
        = ['`'] ++ Layout.template i (ts.map layout) texts ++ ['`'] := rfl
    simp [this]
  refine ReadsBack.of_level 11 rfl (by decide) (fun i rest hrest => ?_) (fun i k _ => ?_)
  · rw [hown]
    refine .right (refuses_of_starts 2 rfl rfl) <| .right (.seq (.seq (.lit rfl)))
      <| .left (.rule (.span (.map (.tight (.sign rfl (.tight
        (Yields.mono (yields_templateParts i rest hlen htexts h he) ?_)))))))
    rintro parts _ ⟨hparts, rfl⟩
    exact .sign rfl fun range => ⟨rfl, builds_template hparts range⟩
  · rw [hown]
    exact leading_of_sign rfl (by decide) (by decide) _

end Tree

end Downlevel
