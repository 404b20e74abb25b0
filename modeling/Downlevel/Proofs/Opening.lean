import Downlevel.Proofs.Level

/-!
# How texts start

The first character or word of a text decides which of the rules for expressions and statements can
match it. Expressions start with none of a few signs (`Opening`), nor with a word of another statement
(`refuses_expression_of_statementWord`); no statement starts with `else` (`word_ne_else`).
-/

namespace Downlevel

open Lexeme

namespace Phrase

/-- A text that starts with none of the characters that no expression starts with. -/
def Opening (cs : List Char) : Prop :=
  ∃ c tail, cs = c :: tail ∧
    c ∉ [' ', '\t', '\r', '\n', '/', '*', ')', ']', '\x7d', ',', ';', '.', '=', '>']

theorem opening_of_yields {cs : List Char} {Q : Built → List Char → Prop}
    (h : (rule .assignment).Yields cs Q) : Opening cs := by
  have hstart : (rule .assignment).starts (Rule.opens 13) cs = true := Yields.starts 13 h rfl
  cases cs with
  | nil => cases hstart
  | cons c tail =>
    refine ⟨c, tail, rfl, fun hc => ?_⟩
    simp only [List.mem_cons, List.not_mem_nil, or_false] at hc
    rcases hc with rfl | rfl | rfl | rfl | rfl | rfl | rfl | rfl | rfl | rfl | rfl | rfl | rfl | rfl <;>
      cases hstart

theorem Opening.skip {cs : List Char} (h : Opening cs) : skip cs = cs := by
  obtain ⟨c, tail, rfl, hc⟩ := h
  refine skip_cons ?_ (fun he => hc (by simp [he])) tail
  simp_all [isSpace]

theorem Opening.isPrefixOf {cs : List Char} (h : Opening cs) {c : Char}
    (hc : c ∈ ['*', ')', ']', '\x7d', ',', ';', '.', '=', '>']) (s : List Char) :
    (c :: s).isPrefixOf cs = false := by
  obtain ⟨d, tail, rfl, hd⟩ := h
  have : c ≠ d := by
    rintro rfl
    exact hd (List.mem_of_mem_drop (i := 5) hc)
  simp [List.isPrefixOf, this]

/-! ## Names -/

theorem isDigit_of_isNameStart {c : Char} (hc : isNameStart c = true) : c.isDigit = false := by
  by_contra hd
  rw [Bool.not_eq_false] at hd
  simp only [isNameStart, Bool.or_eq_true, decide_eq_true_eq] at hc
  rcases hc with (hc | rfl) | rfl
  · delta Char.isAlpha Char.isUpper Char.isLower at hc
    simp only [Char.isDigit, Bool.or_eq_true, Bool.and_eq_true, decide_eq_true_eq] at hc hd
    grind
  · cases hd
  · cases hd

theorem exists_cons_of_isName {x : String} (hx : isName x = true) :
    ∃ c s, x.toList = c :: s ∧ isNameStart c = true := by
  have h : Lexeme.name x.toList = some x.toList.length := by simpa [isName] using hx
  unfold Lexeme.name at h
  split at h
  · cases h
  · rename_i c s hs
    split_ifs at h with hc
    exact ⟨c, s, hs, hc⟩

theorem isName_of_isIdentifier {x : String} (hx : isIdentifier x = true) : isName x = true := by
  have h : identifier x.toList = some x.toList.length := by simpa [isIdentifier] using hx
  unfold identifier at h
  split_ifs at h
  simpa [isName] using h

theorem skip_of_isNameStart {c : Char} (hc : isNameStart c = true) (cs : List Char) :
    skip (c :: cs) = c :: cs := by
  refine skip_cons ?_ ?_ _
  · by_contra h
    simp only [isSpace, Bool.not_eq_false, Bool.or_eq_true, decide_eq_true_eq] at h
    rcases h with ((rfl | rfl) | rfl) | rfl <;> cases hc
  · rintro rfl
    cases hc

theorem skip_name {x : String} (hx : isName x = true) (k : List Char) :
    skip (x.toList ++ k) = x.toList ++ k := by
  obtain ⟨c, s, hs, hc⟩ := exists_cons_of_isName hx
  rw [hs]
  exact skip_of_isNameStart hc _

theorem skip_identifier {x : String} (hx : isIdentifier x = true) (k : List Char) :
    skip (x.toList ++ k) = x.toList ++ k :=
  skip_name (isName_of_isIdentifier hx) k

/-! ## Texts that start no expression -/

theorem refuses_params {cs : List Char} (h : ['('].isPrefixOf cs = false) :
    (rule .params).Refuses cs :=
  .rule (.map (.seq (.seq (.lit h))))

theorem refuses_arrowFunction {cs : List Char} (hid : identifier cs = none)
    (h : ['('].isPrefixOf cs = false) : (rule .arrowFunction).Refuses cs :=
  .rule (.span (.seq (.map (.seq (.rule (.choice (.map (.rule (refuses_token hid)))
    (refuses_params h)))))))

theorem refuses_unary {cs : List Char} (hsign : ∀ c ∈ ['!', '-'], [c].isPrefixOf cs = false)
    (h : primary.Refuses cs) : (rule .unary).Refuses cs :=
  .rule (.choice (.span (.seq (.map (.rule (.choice (.map (.lit (hsign '!' (by simp))))
    (.map (.lit (hsign '-' (by simp))))))))) (.rule (.seq (.map h))))

/-- A chain of operators starts with an operand. -/
theorem refuses_logicalOr {cs : List Char} (h : (rule .unary).Refuses cs) :
    (rule .logicalOr).Refuses cs := by
  have hexponent : (rule .exponent).Refuses cs := .rule (.span (.seq (.map h)))
  have hadditive : (rule .additive).Refuses cs :=
    .rule (.seq (.map (.rule (.seq (.map hexponent)))))
  have hequality : (rule .equality).Refuses cs :=
    .rule (.seq (.map (.rule (.seq (.map hadditive)))))
  exact .rule (.seq (.map (.rule (.seq (.map hequality)))))

/-- What a name starts with starts no sign and no literal. -/
theorem isPrefixOf_of_isNameStart {c d : Char} (hc : isNameStart c = true)
    (hd : isNameStart d = false) (s cs : List Char) : (d :: s).isPrefixOf (c :: cs) = false := by
  refine isPrefixOf_cons_eq_false ?_ (by simp) cs
  have : d ≠ c := by
    rintro rfl
    simp [hc] at hd
  simpa using this

section Word

variable {c : Char} {cs : List Char} (hc : isNameStart c = true)
include hc

theorem refuses_sign {s : String} {d : Char} (hs : s.toList = [d]) (hd : isNameStart d = false) :
    Refuses (Peg.lit s) (c :: cs) :=
  .lit (hs ▸ isPrefixOf_of_isNameStart hc hd [] cs)

theorem refuses_number : (rule .number).Refuses (c :: cs) := by
  refine .rule (refuses_token ?_)
  simp [number, digits, isDigit_of_isNameStart hc]

theorem refuses_string : (rule .string).Refuses (c :: cs) := by
  refine .rule (refuses_token ?_)
  unfold string
  split
  · rename_i h
    obtain ⟨rfl, -⟩ := List.cons_eq_cons.mp h
    cases hc
  · rfl

/-- What a text may be as an operand if it starts with a word other than `function`. -/
theorem yields_primary_of_word {Q : Built → List Char → Prop}
    (hfun : word (c :: cs) ≠ "function".toList)
    (h : Yields (leaf (rule .boolean) (fun text => .boolean (text = "true")) <|>
      leaf (rule .null) (fun _ => .null) <|> leaf (rule .this) (fun _ => .this) <|>
      rule .array <|> rule .object <|> leaf (rule .identifier) .identifier) (c :: cs) Q) :
    primary.Yields (c :: cs) Q :=
  .right (.rule (.span (.seq (.seq (.map (.seq (.rule (refuses_keyword hfun))))))))
    <| .right (.seq (.seq (refuses_sign hc rfl rfl)))
    <| .right (.rule (.span (.map (.tight (refuses_sign hc rfl rfl)))))
    <| .right (.map (refuses_number hc))
    <| .right (.map (refuses_string hc)) h

/-- A word that is neither a name nor a literal starts no expression. -/
theorem refuses_expression_of_word (hid : identifier (c :: cs) = none)
    (hw : ∀ w ∈ ["function", "true", "false", "null", "this"], word (c :: cs) ≠ w.toList) :
    (rule .expression).Refuses (c :: cs) := by
  have hkeyword {w : String} (hmem : w ∈ ["function", "true", "false", "null", "this"]) :
      Lexeme.keyword w (c :: cs) = none := if_neg (hw w hmem)
  have hbool : (Lexeme.keyword "true" (c :: cs) <|> Lexeme.keyword "false" (c :: cs)) = none := by
    rw [hkeyword (by simp), hkeyword (by simp)]
    rfl
  have hprimary : primary.Refuses (c :: cs) :=
    .choice (.rule (.span (.seq (.seq (.map (.seq (.rule (.lexeme (hkeyword (by simp))))))))))
      <| .choice (.seq (.seq (refuses_sign hc rfl rfl)))
      <| .choice (.rule (.span (.map (.tight (refuses_sign hc rfl rfl)))))
      <| .choice (.map (refuses_number hc))
      <| .choice (.map (refuses_string hc))
      <| .choice (.map (.rule (refuses_token hbool)))
      <| .choice (.map (.rule (refuses_token (hkeyword (by simp)))))
      <| .choice (.map (.rule (refuses_token (hkeyword (by simp)))))
      <| .choice (.rule (.span (.map (.seq (.seq (refuses_sign hc rfl rfl))))))
      <| .choice (.rule (.span (.map (.seq (.seq (refuses_sign hc rfl rfl))))))
      <| .map (.rule (refuses_token hid))
  have hsign : ∀ d ∈ ['!', '-'], [d].isPrefixOf (c :: cs) = false := fun d hd =>
    isPrefixOf_of_isNameStart hc (by simp at hd; rcases hd with rfl | rfl <;> rfl) [] cs
  exact .rule (.rule (.choice (refuses_arrowFunction hid (isPrefixOf_of_isNameStart hc rfl [] cs))
    (.span (.seq (.map (refuses_logicalOr (refuses_unary hsign hprimary)))))))

end Word

/-- The words that start no expression. -/
def statementWords : List String :=
  ["var", "let", "const", "return", "if", "else", "while"]

theorem exists_cons_of_word {cs s : List Char} {c : Char} (h : word cs = c :: s) :
    ∃ tail, cs = c :: tail := by
  cases cs with
  | nil => cases h
  | cons d tail =>
    unfold word at h
    rw [List.takeWhile_cons] at h
    split at h
    · exact ⟨tail, by rw [(List.cons_eq_cons.mp h).1]⟩
    · cases h

theorem refuses_expression_of_statementWord {cs : List Char} {w : String} (hw : w ∈ statementWords)
    (h : word cs = w.toList) : (rule .expression).Refuses cs := by
  have hhead : ∀ w ∈ statementWords, w.toList.head?.any isNameStart = true := by decide
  have hkey : ∀ w ∈ statementWords, w ∈ keywords ∧
      w ∉ ["function", "true", "false", "null", "this"] := by decide
  cases hc : w.toList with
  | nil => simpa [hc] using hhead w hw
  | cons c s =>
    obtain ⟨tail, rfl⟩ := exists_cons_of_word (h.trans hc)
    have hstart : isNameStart c = true := by simpa [hc] using hhead w hw
    refine refuses_expression_of_word hstart ?_ fun w' hw' hword => ?_
    · have hany : keywords.any (fun w => w.toList = word (c :: tail)) = true :=
        List.any_eq_true.mpr ⟨w, (hkey w hw).1, by simp [h]⟩
      rw [identifier, if_pos hany]
    · have : w' = w := String.toList_inj.mp (hword.symm.trans h)
      exact (hkey w hw).2 (this ▸ hw')

/-! ## Statements by their first word -/

section Statement

variable {cs : List Char}

theorem refuses_declaration (h : ∀ w ∈ ["var", "let", "const"], word cs ≠ w.toList) :
    (rule .declaration).Refuses cs :=
  have hvar := refuses_keyword (h "var" (by simp))
  have hlet := refuses_keyword (h "let" (by simp))
  have hconst := refuses_keyword (h "const" (by simp))
  .rule (.span (.seq (.seq (.map (.rule (.choice (.map (.rule hvar))
    (.choice (.map (.rule hlet)) (.map (.rule hconst)))))))))

theorem refuses_functionDeclaration (h : word cs ≠ "function".toList) :
    (rule .functionDeclaration).Refuses cs :=
  .rule (.span (.seq (.seq (.map (.seq (.rule (refuses_keyword h)))))))

theorem refuses_returnStatement (h : word cs ≠ "return".toList) :
    (rule .returnStatement).Refuses cs :=
  .rule (.span (.seq (.map (.seq (.rule (refuses_keyword h))))))

theorem refuses_ifStatement (h : word cs ≠ "if".toList) : (rule .ifStatement).Refuses cs :=
  .rule (.span (.seq (.seq (.map (.seq (.seq (.seq (.rule (refuses_keyword h)))))))))

theorem refuses_whileStatement (h : word cs ≠ "while".toList) : (rule .whileStatement).Refuses cs :=
  .rule (.span (.seq (.map (.seq (.seq (.seq (.rule (refuses_keyword h))))))))

/-- What a statement is that starts with none of the words of other statements. -/
theorem yields_expressionStatement {Q : Built → List Char → Prop}
    (hwords : ∀ w ∈ statementWords, word cs ≠ w.toList) (hfun : word cs ≠ "function".toList)
    (hbrace : ['\x7b'].isPrefixOf cs = false) (hsemi : [';'].isPrefixOf cs = false)
    (h : (rule .expressionStatement).Yields cs Q) : statement.Yields cs Q :=
  .right (refuses_declaration fun w hw => hwords w (List.mem_of_mem_take (i := 3) hw))
    <| .right (refuses_functionDeclaration hfun)
    <| .right (refuses_returnStatement (hwords "return" (by simp [statementWords])))
    <| .right (refuses_ifStatement (hwords "if" (by simp [statementWords])))
    <| .right (refuses_whileStatement (hwords "while" (by simp [statementWords])))
    <| .right (.rule (.span (.map (.seq (.seq (.lit hbrace))))))
    <| .right (.rule (.span (.map (.lit hsemi)))) h

/-- No statement starts with `else`. -/
theorem word_ne_else {Q : Built → List Char → Prop} (h : statement.Yields cs Q) :
    word cs ≠ "else".toList := by
  intro helse
  have hne {w : String} (hw : w ≠ "else") : word cs ≠ w.toList :=
    fun hcs => hw (String.toList_inj.mp (hcs.symm.trans helse))
  have hexpr := refuses_expression_of_statementWord (by simp [statementWords]) helse
  have hdecl : ∀ w ∈ ["var", "let", "const"], word cs ≠ w.toList := fun w hw => hne (by
    rintro rfl
    exact absurd hw (by decide))
  obtain ⟨tail, rfl⟩ : ∃ tail, cs = 'e' :: tail := exists_cons_of_word helse
  have hexpr' : (rule .expression).Refuses (skip ('e' :: tail)) := by
    rwa [skip_of_isNameStart rfl]
  have hrefuses : statement.Refuses ('e' :: tail) :=
    .choice (refuses_declaration hdecl)
      <| .choice (refuses_functionDeclaration (hne (by decide)))
      <| .choice (refuses_returnStatement (hne (by decide)))
      <| .choice (refuses_ifStatement (hne (by decide)))
      <| .choice (refuses_whileStatement (hne (by decide)))
      <| .choice (refuses_of_starts 1 rfl rfl)
      <| .choice (refuses_of_starts 1 rfl rfl)
      <| .rule (.span (.map (.seq (.seq_right (.absent rfl hexpr')))))
  obtain ⟨v, c, hc, -⟩ := h 0
  rw [hrefuses 0] at hc
  cases hc

end Statement

end Phrase

end Downlevel
