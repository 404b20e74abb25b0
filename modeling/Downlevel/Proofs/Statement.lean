import Downlevel.Proofs.Function

/-!
# Statements read back

A statement is found by its first word or sign. A conditional without a second branch must not be
followed by `else`; with two branches, the first one is a block.
-/

namespace Downlevel

open Lexeme Phrase

namespace Tree

variable {a : Unit}

theorem word_ne {w w' : String} {cs : List Char} (h : word cs = w.toList) (hne : w ≠ w') :
    word cs ≠ w'.toList :=
  fun h' => hne (String.toList_inj.mp (h.symm.trans h'))

theorem word_cons_ne {c : Char} (hc : isNameChar c = false) (cs : List Char) {w : String}
    (hw : w ≠ "") : word (c :: cs) ≠ w.toList := by
  rw [word, List.takeWhile_cons_of_neg (by simp [hc])]
  intro h
  exact hw (String.toList_inj.mp h.symm)

/-! ## Blocks -/

theorem skip_lineBreak (i : Nat) (cs : List Char) : skip (lineBreak i ++ cs) = skip cs := by
  simp [lineBreak]

theorem reads_block {ts : List (Tree Unit)} {cs rest : List Char}
    (h : Reads (Peg.list statement) (skip cs) ('\x7d' :: rest) (List.Forall₂ Builds ts)) :
    (rule .block).Reads ('\x7b' :: cs) rest (Builds (node a (.block ts))) := by
  refine .rule (.span (.map (.seq (.seq (.sign rfl (Yields.mono h fun vs left hvs => ?_))))))
  rw [hvs.1, skip_sign (by simp)]
  exact .sign rfl fun range => ⟨rfl, builds_block hvs.2 range⟩

theorem meetsBlock_block {body : List (Tree Unit)} (h : ∀ t ∈ body, MeetsStatement t) :
    (node a (.block body)).MeetsBlock := by
  intro i rest
  have hskip : ∀ cs, skip ('\x7b' :: cs) = '\x7b' :: cs := skip_sign (by simp)
  have hbrace : skip ('\x7d' :: rest) = '\x7d' :: rest := skip_sign (by simp) rest
  have hstop : statement.Refuses ('\x7d' :: rest) := refuses_of_starts 15 rfl rfl
  rw [text_eq_own rfl rfl]
  cases body with
  | nil =>
    have hown : (node a (.block [])).own i ++ rest = '\x7b' :: '\x7d' :: rest := rfl
    rw [hown]
    refine ⟨hskip _, reads_block ((Reads.nil ?_).mono fun _ hvs => hvs ▸ .nil)⟩
    rwa [hbrace]
  | cons t ts =>
    have hown : (node a (.block (t :: ts))).own i ++ rest = '\x7b' ::
        (lines (lineBreak (i + 1)) [] (i + 1) (t :: ts) ++ (lineBreak i ++ '\x7d' :: rest)) := by
      have : (node a (.block (t :: ts))).own i = "\x7b".toList
          ++ (((t :: ts).map layout).flatMap fun l => lineBreak (i + 1) ++ l.text .statement (i + 1))
          ++ lineBreak i ++ "\x7d".toList := rfl
      rw [this, List.flatMap_map]
      simp [lines]
    have hend : skip (lineBreak i ++ '\x7d' :: rest) = '\x7d' :: rest := by
      rw [skip_lineBreak, hbrace]
    have hafter : ∀ cs, skip ([] ++ cs) = skip cs := fun _ => rfl
    have hlines := (reads_lines (i := i + 1) (skip_lineBreak (i + 1)) hafter
      (hend.symm ▸ hstop) (hend.symm ▸ word_cons_ne rfl rest (by decide)) h).1
    rw [hown]
    refine ⟨hskip _, reads_block (Yields.mono hlines fun vs left hvs => ⟨?_, hvs.2⟩)⟩
    rw [hvs.1, hend, hbrace]

theorem exists_cons_of_block {cs : List Char} {Q : Built → List Char → Prop}
    (h : (rule .block).Yields cs Q) : ∃ tail, cs = '\x7b' :: tail := by
  by_cases hbrace : ['\x7b'].isPrefixOf cs = true
  · obtain ⟨tail, rfl⟩ := List.isPrefixOf_iff_prefix.mp hbrace
    exact ⟨tail, rfl⟩
  · have hrefuses : (rule .block).Refuses cs :=
      .rule (.span (.map (.seq (.seq (.lit (Bool.not_eq_true _ ▸ hbrace))))))
    obtain ⟨v, c, hc, -⟩ := h 0
    rw [hrefuses 0] at hc
    cases hc

theorem meetsStatement_of_meetsBlock {t : Tree Unit} (h : t.MeetsBlock) (i : Nat)
    (rest : List Char) : statement.Meets (t.layout.text .statement i ++ rest) rest (Builds t) := by
  obtain ⟨hskip, hreads⟩ := h i rest
  obtain ⟨tail, htail⟩ := exists_cons_of_block hreads
  rw [htail] at hskip hreads ⊢
  have hne {w : String} (hw : w ≠ "") : word ('\x7b' :: tail) ≠ w.toList := word_cons_ne rfl tail hw
  exact ⟨hskip, .right (refuses_declaration fun w hw => hne (by rintro rfl; simp at hw))
    <| .right (refuses_functionDeclaration (hne (by decide)))
    <| .right (refuses_returnStatement (hne (by decide)))
    <| .right (refuses_ifStatement (hne (by decide)))
    <| .right (refuses_whileStatement (hne (by decide))) <| .left hreads⟩

/-! ## Declarations -/

theorem yields_declarationKeyword (keyword : DeclKind) {rest : List Char}
    (hrest : tokenEnds rest = true) : (rule .declarationKeyword).Yields
      (keyword.keyword.toList ++ rest) fun v left => v = keyword ∧ left = rest := by
  cases keyword with
  | var => exact .rule (.left (.map (.rule (yields_keyword (by decide) hrest ⟨rfl, rfl⟩))))
  | «let» =>
    have hword : word ("let".toList ++ rest) = "let".toList := word_append (by decide) hrest
    exact .rule (.right (.map (.rule (refuses_keyword (word_ne hword (by decide)))))
      (.left (.map (.rule (yields_keyword (by decide) hrest ⟨rfl, rfl⟩)))))
  | const =>
    have hword : word ("const".toList ++ rest) = "const".toList := word_append (by decide) hrest
    exact .rule (.right (.map (.rule (refuses_keyword (word_ne hword (by decide)))))
      (.right (.map (.rule (refuses_keyword (word_ne hword (by decide)))))
        (.map (.rule (yields_keyword (by decide) hrest ⟨rfl, rfl⟩)))))

/-- A declarator that is read back. -/
def MeetsDeclarator (t : Tree Unit) : Prop :=
  ∀ i {rest}, Stops 1 rest →
    (rule .declarator).Meets (t.layout.text .declarator i ++ rest) rest (Builds t)

theorem meetsStatement_declaration (keyword : DeclKind) {t : Tree Unit} {ts : List (Tree Unit)}
    (h : ∀ u ∈ t :: ts, u.MeetsDeclarator) :
    MeetsStatement (node a (.declaration keyword (t :: ts))) := by
  intro i rest _
  have hsemi : skip (';' :: rest) = ';' :: rest := skip_sign (by simp) rest
  have hlist := meets_commaList (stops_closing (c := ',') (by simp)) (fun u hu _ hrest => h u hu i hrest)
    (stops_closing (c := ';') (by simp) rest) (by rw [hsemi]; rfl)
  have hown : (node a (.declaration keyword (t :: ts))).layout.text .statement i ++ rest
      = keyword.keyword.toList ++ ' ' :: (Layout.list ", ".toList .declarator i ((t :: ts).map layout)
        ++ ';' :: rest) := by
    rw [text_eq_own rfl rfl]
    have : (node a (.declaration keyword (t :: ts))).own i = keyword.keyword.toList ++ " ".toList
        ++ Layout.list ", ".toList .declarator i ((t :: ts).map layout) ++ ";".toList := rfl
    rw [this]
    simp only [List.append_assoc]
    rfl
  rw [hown]
  refine ⟨by cases keyword <;> exact skip_of_isNameStart rfl _, .left (.rule (.span (.seq (.seq (.map
    (Yields.mono (yields_declarationKeyword keyword rfl) ?_))))))⟩
  rintro v left ⟨rfl, rfl⟩
  rw [skip_space, hlist.skip]
  refine Yields.mono hlist.reads fun vs left hvs => ?_
  rw [hvs.1, hsemi]
  exact .sign rfl fun range => ⟨rfl, builds_declaration _ hvs.2 range⟩

theorem meetsStatement_functionDeclaration {x : String} (hx : isIdentifier x = true)
    {params : List (Tree Unit)} (hps : MeetsParams params) {body : Tree Unit}
    (hbody : body.MeetsBlock) : MeetsStatement (node a (.functionDeclaration x params body)) := by
  intro i rest _
  have hown : (node a (.functionDeclaration x params body)).layout.text .statement i ++ rest
      = "function".toList ++ ' ' :: (x.toList
        ++ (Layout.signature (params.map layout) body.layout i ++ rest)) := by
    rw [text_eq_own rfl rfl]
    have : (node a (.functionDeclaration x params body)).own i = "function ".toList ++ x.toList
        ++ Layout.signature (params.map layout) body.layout i := rfl
    simp [this]
  have hword : ∀ k, word ("function".toList ++ ' ' :: k) = "function".toList :=
    fun k => word_append (by decide) rfl
  rw [hown]
  refine ⟨skip_of_isNameStart rfl _, .right (refuses_declaration fun w hw => word_ne (hword _) (by
    rintro rfl
    simp at hw)) (.left (.rule (.span (.seq (.seq (.map (.seq (.rule
      (yields_keyword (by decide) rfl ?_)))))))))⟩
  rw [skip_space, skip_identifier hx]
  refine yields_identifier hx rfl fun name hname => ?_
  rw [skip_signature]
  refine Yields.mono (yields_signature hps hbody i rest) fun ps left hps => ?_
  exact Yields.mono hps.2 fun v left hv range =>
    ⟨hv.1, hname ▸ builds_functionDeclaration hps.1 hv.2 range⟩

/-! ## Control flow -/

theorem meetsStatement_returnStatement {t? : Option (Tree Unit)} (h : ∀ t ∈ t?, t.ReadsBack)
    (he : ∀ t ∈ t?, t.kind.isExpression = true) : MeetsStatement (node a (.returnStatement t?)) := by
  intro i rest _
  have hsemi : skip (';' :: rest) = ';' :: rest := skip_sign (by simp) rest
  obtain ⟨tail, hown, hends, hvalue⟩ : ∃ tail,
      (node a (.returnStatement t?)).layout.text .statement i ++ rest = "return".toList ++ tail ∧
      tokenEnds tail = true ∧ Reads (Peg.optional (rule .expression)) (skip tail) (';' :: rest)
        fun v => BuildsMaybe t? (Build.maybe v) := by
    rw [text_eq_own rfl rfl]
    cases t? with
    | none =>
      refine ⟨';' :: rest, rfl, rfl, hsemi.symm ▸ .missing (refuses_expression_of_close (by simp) rest)
        ⟨rfl, buildsMaybe_none⟩⟩
    | some t =>
      have hmeets := (h t rfl).meets_expression (he t rfl) i (stops_closing (c := ';') (by simp) rest)
      refine ⟨' ' :: (t.operand 1 i ++ ';' :: rest), ?_, rfl, ?_⟩
      · have : (node a (.returnStatement (some t))).own i
            = "return".toList ++ (" ".toList ++ t.operand 1 i) ++ ";".toList := rfl
        simp [this]
      · rw [skip_space, hmeets.skip]
        exact .present (Yields.mono hmeets.reads fun v left hv => ⟨hv.1, buildsMaybe_some hv.2⟩)
  have hword : word ("return".toList ++ tail) = "return".toList := word_append (by decide) hends
  rw [hown]
  refine ⟨skip_of_isNameStart rfl _, .right (refuses_declaration fun w hw => word_ne hword (by
    rintro rfl
    simp at hw)) <| .right (refuses_functionDeclaration (word_ne hword (by decide)))
    <| .left (.rule (.span (.seq (.map (.seq (.rule (yields_keyword (by decide) hends
      (Yields.mono hvalue fun v left hv => ?_))))))))⟩
  rw [hv.1, hsemi]
  exact .sign rfl fun range => ⟨rfl, builds_returnStatement hv.2 range⟩

/-- The condition of a statement. -/
theorem yields_test {keyword : Phrase Unit} {w : List Char} {test : Tree Unit} (h : test.ReadsBack)
    (he : test.kind.isExpression = true) (i : Nat) (k : List Char)
    (hkeyword : ∀ k, keyword.Yields (w ++ ' ' :: k) fun _ left => left = ' ' :: k) :
    Yields (keyword *> Peg.lit "(" *> rule .expression <* Peg.lit ")")
      (w ++ ' ' :: '(' :: (test.operand 1 i ++ ')' :: ' ' :: k))
      fun v left => Builds test v ∧ left = ' ' :: k := by
  have hmeets := h.meets_expression he i (stops_closing (c := ')') (by simp) (' ' :: k))
  refine .seq (.seq (.seq (Yields.mono (hkeyword _) ?_)))
  rintro _ _ rfl
  rw [skip_space, skip_sign (by simp)]
  refine .sign rfl ?_
  rw [hmeets.skip]
  refine Yields.mono hmeets.reads fun v left hv => ?_
  rw [hv.1, skip_sign (by simp)]
  exact .sign rfl ⟨hv.2, rfl⟩

theorem meetsStatement_whileStatement {test body : Tree Unit} (h : test.ReadsBack)
    (he : test.kind.isExpression = true) (hbody : MeetsStatement body) :
    MeetsStatement (node a (.whileStatement test body)) := by
  intro i rest hrest
  have hown : (node a (.whileStatement test body)).layout.text .statement i ++ rest
      = "while".toList ++ ' ' :: '(' ::
        (test.operand 1 i ++ ')' :: ' ' :: (body.layout.text .statement i ++ rest)) := by
    rw [text_eq_own rfl rfl]
    have : (node a (.whileStatement test body)).own i = "while (".toList ++ test.operand 1 i
        ++ ") ".toList ++ body.layout.text .statement i := rfl
    simp [this]
  have hword : ∀ k, word ("while".toList ++ ' ' :: k) = "while".toList :=
    fun k => word_append (by decide) rfl
  have htest := yields_test h he i (body.layout.text .statement i ++ rest)
    fun k => .rule (r := .whileKeyword) (yields_keyword (w := "while") (by decide) rfl rfl)
  rw [hown]
  refine ⟨skip_of_isNameStart rfl _, .right (refuses_declaration fun w hw => word_ne (hword _) (by
    rintro rfl
    simp at hw)) <| .right (refuses_functionDeclaration (word_ne (hword _) (by decide)))
    <| .right (refuses_returnStatement (word_ne (hword _) (by decide)))
    <| .right (refuses_ifStatement (word_ne (hword _) (by decide)))
    <| .left (.rule (.span (.seq (.map (Yields.mono htest ?_)))))⟩
  rintro v _ ⟨hv, rfl⟩
  rw [skip_space, (hbody i hrest).skip]
  exact Yields.mono (hbody i hrest).reads fun w left hw range =>
    ⟨hw.1, builds_whileStatement hv hw.2 range⟩

/-- What follows the first branch of a conditional. -/
def elseText (alternate : Option (Tree Unit)) (i : Nat) : List Char :=
  Layout.maybe " else " .statement i (alternate.map layout)

theorem reads_else {alternate : Option (Tree Unit)} (h : ∀ t ∈ alternate, MeetsStatement t) (i : Nat)
    {rest : List Char} (hrest : word (skip rest) ≠ "else".toList) :
    Reads (Peg.optional (rule .elseKeyword *> statement)) (skip (elseText alternate i ++ rest)) rest
      fun v => BuildsMaybe alternate (Build.maybe v) := by
  cases alternate with
  | none =>
    exact .missing (.seq (.rule (refuses_keyword hrest))) ⟨skip_skip rest, buildsMaybe_none⟩
  | some t =>
    have hmeets := h t rfl i hrest
    have hcs : elseText (some t) i ++ rest
        = ' ' :: ("else".toList ++ ' ' :: (t.layout.text .statement i ++ rest)) := by
      simp [elseText, Layout.maybe]
    have hskip : ∀ k, skip ("else".toList ++ k) = "else".toList ++ k :=
      fun k => skip_of_isNameStart rfl _
    rw [hcs, skip_space, hskip]
    refine .present (.seq (.rule (yields_keyword (by decide) rfl ?_)))
    rw [skip_space, hmeets.skip]
    exact Yields.mono hmeets.reads fun v left hv => ⟨hv.1, buildsMaybe_some hv.2⟩

/-- The text of a conditional whose first branch needs no braces. -/
theorem text_ifStatement {test consequent : Tree Unit} {alternate : Option (Tree Unit)}
    (hbraced : alternate.isSome = true → consequent.kind.isBlock = true) (i : Nat) (rest : List Char) :
    (node a (.ifStatement test consequent alternate)).layout.text .statement i ++ rest
      = "if".toList ++ ' ' :: '(' :: (test.operand 1 i ++ ')' :: ' ' ::
        (consequent.layout.text .statement i ++ (elseText alternate i ++ rest))) := by
  have hown : (node a (.ifStatement test consequent alternate)).own i = "if (".toList
      ++ test.operand 1 i ++ ") ".toList
      ++ Layout.branches consequent.layout i (alternate.map layout) := rfl
  have hbranches : Layout.branches consequent.layout i (alternate.map layout)
      = consequent.layout.text .statement i ++ elseText alternate i := by
    cases alternate with
    | none => simp [Layout.branches, elseText, Layout.maybe]
    | some t =>
      simp [Layout.branches, elseText, Layout.maybe, isBlock_layout, hbraced rfl]
  rw [text_eq_own rfl rfl, hown, hbranches]
  simp

theorem meetsStatement_ifStatement {test consequent : Tree Unit} {alternate : Option (Tree Unit)}
    (h : test.ReadsBack) (he : test.kind.isExpression = true) (hconsequent : MeetsStatement consequent)
    (hbraced : alternate.isSome = true → consequent.kind.isBlock = true ∧ consequent.MeetsBlock)
    (halternate : ∀ t ∈ alternate, MeetsStatement t) :
    MeetsStatement (node a (.ifStatement test consequent alternate)) := by
  intro i rest hrest
  have hword : ∀ k, word ("if".toList ++ ' ' :: k) = "if".toList :=
    fun k => word_append (by decide) rfl
  have htest := yields_test h he i
    (consequent.layout.text .statement i ++ (elseText alternate i ++ rest))
    fun k => .rule (r := .ifKeyword) (yields_keyword (w := "if") (by decide) rfl rfl)
  -- Only a block may be followed by `else` without taking it for its own
  have hmeets : statement.Meets
      (consequent.layout.text .statement i ++ (elseText alternate i ++ rest))
      (elseText alternate i ++ rest) (Builds consequent) := by
    cases alternate with
    | none => exact hconsequent i hrest
    | some t => exact meetsStatement_of_meetsBlock (hbraced rfl).2 i _
  rw [text_ifStatement fun hsome => (hbraced hsome).1]
  refine ⟨skip_of_isNameStart rfl _, .right (refuses_declaration fun w hw => word_ne (hword _) (by
    rintro rfl
    simp at hw)) <| .right (refuses_functionDeclaration (word_ne (hword _) (by decide)))
    <| .right (refuses_returnStatement (word_ne (hword _) (by decide)))
    <| .left (.rule (.span (.seq (.seq (.map (Yields.mono htest ?_))))))⟩
  rintro v _ ⟨hv, rfl⟩
  rw [skip_space, hmeets.skip]
  refine Yields.mono hmeets.reads fun w left hw => ?_
  rw [hw.1]
  exact Yields.mono (reads_else halternate i hrest) fun u left hu range =>
    ⟨hu.1, builds_ifStatement hv hw.2 hu.2 range⟩

/-! ## Expressions as statements -/

theorem meetsStatement_empty : MeetsStatement (node a .empty) := by
  intro i rest _
  have hown : (node a .empty).layout.text .statement i ++ rest = ';' :: rest := rfl
  have hne {w : String} (hw : w ≠ "") : word (';' :: rest) ≠ w.toList := word_cons_ne rfl rest hw
  rw [hown]
  exact ⟨skip_sign (by simp) rest,
    .right (refuses_declaration fun w hw => hne (by rintro rfl; simp at hw))
    <| .right (refuses_functionDeclaration (hne (by decide)))
    <| .right (refuses_returnStatement (hne (by decide)))
    <| .right (refuses_ifStatement (hne (by decide)))
    <| .right (refuses_whileStatement (hne (by decide)))
    <| .right (.rule (.span (.map (.seq (.seq (.lit rfl))))))
    <| .left (.rule (.span (.map (.sign rfl fun range => ⟨rfl, builds_node rfl⟩))))⟩

theorem word_append_sign (cs rest : List Char) {c : Char} (hc : isNameChar c = false) :
    word (cs ++ c :: rest) = word cs := by
  rw [word, List.takeWhile_append, List.takeWhile_cons_of_neg (by simp [hc]), List.append_nil]
  split
  · rename_i hlen
    exact (word_eq_self hlen).symm
  · rfl

/-- A text that is read as an expression, and as no other statement, is a statement. -/
theorem meets_expressionStatement {e : Tree Unit} {cs rest : List Char} (hskip : skip cs = cs)
    (h : (rule .expression).Reads cs (';' :: rest) (Builds e))
    (hfun : word cs ≠ "function".toList) (hbrace : ['\x7b'].isPrefixOf cs = false)
    (hsemi : [';'].isPrefixOf cs = false) :
    statement.Meets cs rest (Builds (node a (.expressionStatement e))) := by
  have hwords : ∀ w ∈ statementWords, word cs ≠ w.toList := by
    intro w hw hword
    obtain ⟨v, c, hc, -⟩ := h 0
    rw [refuses_expression_of_statementWord hw hword 0] at hc
    cases hc
  refine ⟨hskip, yields_expressionStatement hwords hfun hbrace hsemi (.rule (.span (.map (.seq (.seq
    (.absent (by simpa using hbrace) ?_))))))⟩
  rw [hskip]
  refine Yields.mono h fun v left hv => ?_
  rw [hv.1, skip_sign (by simp)]
  exact .sign rfl fun range => ⟨rfl, builds_expressionStatement hv.2 range⟩

/-- Parentheses keep an expression from being read as another statement. -/
theorem meetsStatement_expressionStatement {e : Tree Unit} (h : e.ReadsBack)
    (he : e.kind.isExpression = true) : MeetsStatement (node a (.expressionStatement e)) := by
  intro i rest _
  have hstops : Stops 1 (';' :: rest) := stops_closing (by simp) rest
  have htext : (node a (.expressionStatement e)).layout.text .statement i ++ rest
      = Downlevel.parenthesized readsAsStatement (e.operand 1 i) ++ ';' :: rest := by
    rw [text_eq_own rfl rfl]
    have : (node a (.expressionStatement e)).own i
        = Downlevel.parenthesized readsAsStatement (e.operand 1 i) ++ ";".toList := rfl
    simp [this]
  rw [htext, Downlevel.parenthesized]
  split
  · rw [operand_of_le he e.kind.precedence_bounds.1]
    exact meets_expressionStatement (skip_sign (by simp) _)
      (.rule (h.parenthesized_expression i hstops)) (word_cons_ne rfl _ (by decide)) rfl rfl
  · rename_i hplain
    have hmeets := h.meets_expression he i hstops
    have hlen := h.length_operand he 1 i
    have hsign {c : Char} : [c].isPrefixOf (e.operand 1 i ++ ';' :: rest)
        = [c].isPrefixOf (e.operand 1 i) := isPrefixOf_append_of_length_le _ hlen
    simp only [readsAsStatement, Bool.or_eq_true, decide_eq_true_eq, not_or, Bool.not_eq_true]
      at hplain
    refine meets_expressionStatement hmeets.skip hmeets.reads ?_ (hsign.trans hplain.1)
      ((h.opening_operand he 1 i _).isPrefixOf (by decide) [])
    rw [word_append_sign _ _ rfl]
    exact hplain.2

end Tree

end Downlevel
