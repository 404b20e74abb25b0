import Downlevel.Proofs.Statement

/-!
# Programs read back

By induction on the tree, the text of every well-formed tree is read back, if the first branches of
its conditionals need no braces (`Formed.rereads`). For the whole text of a program this means that
reading it yields the program again (`yields_program`).
-/

namespace Downlevel

open Lexeme Phrase

namespace Tree

variable {a : Unit}

/-- A tree is read back where it may stand. -/
def Rereads (t : Tree Unit) : Prop :=
  match t.kind.category with
  | .program => True
  | .statement => MeetsStatement t ∧ (t.kind.isBlock = true → t.MeetsBlock)
  | .expression => t.ReadsBack
  | .declarator => t.MeetsDeclarator
  | .param => t.MeetsParam
  | .property => t.MeetsProperty

namespace Rereads

variable {t : Tree Unit} (h : t.Rereads)
include h

theorem readsBack (ht : t.kind.isExpression = true) : t.ReadsBack := by
  unfold Rereads at h
  rwa [of_decide_eq_true ht] at h

theorem meetsStatement (ht : t.kind.isStatement = true) : MeetsStatement t := by
  unfold Rereads at h
  rw [of_decide_eq_true ht] at h
  exact h.1

theorem meetsBlock (ht : t.kind.isBlock = true) : t.MeetsBlock := by
  unfold Rereads at h
  rw [of_decide_eq_true (Kind.isStatement_of_isBlock ht)] at h
  exact h.2 ht

theorem meetsDeclarator (ht : t.kind.isDeclarator = true) : t.MeetsDeclarator := by
  unfold Rereads at h
  rwa [of_decide_eq_true ht] at h

theorem meetsParam (ht : t.kind.isParam = true) : t.MeetsParam := by
  unfold Rereads at h
  rwa [of_decide_eq_true ht] at h

theorem meetsProperty (ht : t.kind.isProperty = true) : t.MeetsProperty := by
  unfold Rereads at h
  rwa [of_decide_eq_true ht] at h

end Rereads

/-! ## One node -/

theorem meetsParams_of_formed {params : List (Tree Unit)} (hformed : ∀ p ∈ params, p.Formed)
    (h : ∀ p ∈ params, p.Rereads) (hlast : Kind.paramsFormed (params.map kind) = true) :
    MeetsParams params where
  meets p hp := (h p hp).meetsParam (isParam_of_paramsFormed hlast p hp)
  formed := hformed
  last := hlast

theorem rereads_property {key : PropertyKey} {value : Tree Unit} {shorthand method : Bool}
    (here : ((Kind.property key value shorthand method).map kind).formed = true)
    (hformed : value.Formed) (h : value.Rereads) (hbelow : ∀ c ∈ value.kind.children, c.Rereads) :
    (node a (.property key value shorthand method)).Rereads := by
  simp only [Kind.map, Kind.formed, Bool.and_eq_true] at here
  obtain ⟨hkey, hvalue⟩ := here
  cases shorthand <;> cases method <;> simp only [Kind.valueFormed] at hvalue
  case false.false => exact meetsProperty_keyed hkey (h.readsBack hvalue) hvalue
  case true.false =>
    simp only [Bool.and_eq_true, decide_eq_true_eq] at hvalue
    obtain ⟨b, k⟩ := value
    obtain rfl : k = .identifier key.name := Kind.isExpression_of_identifierName? hvalue.2
    rw [hvalue.1]
    exact meetsProperty_shorthand (formed_node.mp hformed).1
  case false.true =>
    obtain ⟨b, k⟩ := value
    cases k with
    | functionExpression name params body =>
      cases name with
      | some name => cases hvalue
      | none =>
        obtain ⟨here, below⟩ := formed_node.mp hformed
        simp only [Kind.map, Kind.formed, Bool.and_eq_true] at here
        refine meetsProperty_method hkey (meetsParams_of_formed (fun p hp => below p ?_)
          (fun p hp => hbelow p ?_) here.1.2) ((hbelow body ?_).meetsBlock here.2)
        all_goals simp_all [Kind.children]
    | _ => cases hvalue
  case true.true => cases hvalue

section Node

variable {k : Kind (Tree Unit)} (here : (k.map kind).formed = true)
  (hformed : ∀ c ∈ k.children, c.Formed) (ih : ∀ c ∈ k.children, c.Rereads)
include here hformed ih

theorem rereads_statement (hk : k.isStatement = true) (hbraced : (k.map kind).isBraced = true) :
    (node a k).Rereads := by
  cases k with
  | declaration keyword declarators =>
    simp only [Kind.map, Kind.formed, Bool.and_eq_true, all_map_kind] at here
    cases declarators with
    | nil => simp at here
    | cons t ts =>
      exact ⟨meetsStatement_declaration keyword fun u hu => (ih u hu).meetsDeclarator (here.2 u hu),
        fun h => by cases h⟩
  | functionDeclaration name params body =>
    simp only [Kind.map, Kind.formed, Bool.and_eq_true] at here
    refine ⟨meetsStatement_functionDeclaration here.1.1 (meetsParams_of_formed
      (fun p hp => hformed p ?_) (fun p hp => ih p ?_) here.1.2) ((ih body ?_).meetsBlock here.2),
      fun h => by cases h⟩
    all_goals simp_all [Kind.children]
  | returnStatement argument =>
    have here := option_all_map_kind.mp here
    simp only [Option.mem_toList] at here
    refine ⟨meetsStatement_returnStatement (fun t ht => (ih t ?_).readsBack (here t ht)) here,
      fun h => by cases h⟩
    simpa [Kind.children] using ht
  | ifStatement test consequent alternate =>
    simp only [Kind.map, Kind.formed, Bool.and_eq_true, option_all_map_kind, Option.mem_toList] at here
    obtain ⟨⟨htest, hconsequent⟩, halternate⟩ := here
    have hblock : alternate.isSome = true → consequent.kind.isBlock = true := by
      cases alternate with
      | none => simp
      | some t => exact fun _ => hbraced
    refine ⟨meetsStatement_ifStatement ((ih test ?_).readsBack htest) htest
      ((ih consequent ?_).meetsStatement hconsequent)
      (fun h => ⟨hblock h, (ih consequent ?_).meetsBlock (hblock h)⟩)
      (fun t ht => (ih t ?_).meetsStatement (halternate t ht)), fun h => by cases h⟩
    all_goals simp_all [Kind.children]
  | whileStatement test body =>
    simp only [Kind.map, Kind.formed, Bool.and_eq_true] at here
    exact ⟨meetsStatement_whileStatement ((ih test (by simp [Kind.children])).readsBack here.1) here.1
      ((ih body (by simp [Kind.children])).meetsStatement here.2), fun h => by cases h⟩
  | block body =>
    have hblock : (node a (.block body)).MeetsBlock :=
      meetsBlock_block fun t ht => (ih t ht).meetsStatement (all_map_kind.mp here t ht)
    exact ⟨fun i rest _ => meetsStatement_of_meetsBlock hblock i rest, fun _ => hblock⟩
  | expressionStatement e =>
    exact ⟨meetsStatement_expressionStatement ((ih e (by simp [Kind.children])).readsBack here) here,
      fun h => by cases h⟩
  | empty => exact ⟨meetsStatement_empty, fun h => by cases h⟩
  | _ => cases hk

theorem readsBack_of_formed (hk : k.isExpression = true) : (node a k).ReadsBack := by
  cases k with
  | number raw => exact readsBack_number here
  | string raw => exact readsBack_string here
  | boolean value => exact readsBack_boolean value
  | null => exact readsBack_null
  | identifier name => exact readsBack_identifier here
  | this => exact readsBack_this
  | template texts expressions =>
    simp only [Kind.map, Kind.formed, Bool.and_eq_true, decide_eq_true_eq, List.length_map,
      all_map_kind] at here
    exact readsBack_template here.1.1 (List.all_eq_true.mp here.1.2)
      (fun t ht => (ih t ht).readsBack (here.2 t ht)) here.2
  | array elements =>
    have here := all_map_kind.mp here
    exact readsBack_array (fun t ht => (ih t ht).readsBack (here t ht)) here
  | object properties =>
    exact readsBack_object fun t ht => (ih t ht).meetsProperty (all_map_kind.mp here t ht)
  | functionExpression name params body =>
    simp only [Kind.map, Kind.formed, Bool.and_eq_true] at here
    refine readsBack_functionExpression (fun x hx => ?_) (meetsParams_of_formed
      (fun p hp => hformed p ?_) (fun p hp => ih p ?_) here.1.2) ((ih body ?_).meetsBlock here.2)
    · obtain rfl := hx
      exact here.1.1
    all_goals simp_all [Kind.children]
  | arrowFunction params body =>
    simp only [Kind.map, Kind.formed, Bool.and_eq_true] at here
    refine readsBack_arrowFunction (meetsParams_of_formed (fun p hp => hformed p ?_)
      (fun p hp => ih p ?_) here.1) fun i rest hrest => ?_
    · simp [Kind.children, hp]
    · simp [Kind.children, hp]
    · have hbody := ih body (by simp [Kind.children])
      cases hb : body.kind.isBlock with
      | true => exact meets_arrowBody_block hb (hbody.meetsBlock hb) i rest
      | false =>
        have he : body.kind.isExpression = true := by simpa [hb] using here.2
        exact meets_arrowBody_expression hb (hbody.readsBack he) he i hrest
  | member base name =>
    simp only [Kind.map, Kind.formed, Bool.and_eq_true] at here
    exact readsBack_member ((ih base (by simp [Kind.children])).readsBack here.1) here.1
      (hformed base (by simp [Kind.children])) here.2
  | index base key =>
    simp only [Kind.map, Kind.formed, Bool.and_eq_true] at here
    exact readsBack_index ((ih base (by simp [Kind.children])).readsBack here.1) here.1
      (hformed base (by simp [Kind.children]))
      ((ih key (by simp [Kind.children])).readsBack here.2) here.2
  | call callee arguments =>
    simp only [Kind.map, Kind.formed, Bool.and_eq_true, all_map_kind] at here
    exact readsBack_call ((ih callee (by simp [Kind.children])).readsBack here.1) here.1
      (hformed callee (by simp [Kind.children]))
      (fun t ht => (ih t (by simp [Kind.children, ht])).readsBack (here.2 t ht)) here.2
  | binary op l r =>
    simp only [Kind.map, Kind.formed, Bool.and_eq_true] at here
    have hl := (ih l (by simp [Kind.children])).readsBack here.1
    have hr := (ih r (by simp [Kind.children])).readsBack here.2
    have hleft := hformed l (by simp [Kind.children])
    by_cases hop : op = .power
    · subst hop
      exact readsBack_power hl hr here.1 here.2 hleft
    · exact readsBack_binary hl hr here.1 here.2 hop hleft
  | unary op argument =>
    exact readsBack_unary ((ih argument (by simp [Kind.children])).readsBack here) here op
  | assign target value =>
    simp only [Kind.map, Kind.formed, Bool.and_eq_true] at here
    have htarget := Kind.isExpression_of_isPlace here.1
    exact readsBack_assign ((ih target (by simp [Kind.children])).readsBack htarget)
      ((ih value (by simp [Kind.children])).readsBack here.2) htarget here.2 here.1
      (hformed target (by simp [Kind.children]))
  | _ => cases hk

/-- A node is read back if its children are, and the children of a method. -/
theorem rereads_node (hbraced : (k.map kind).isBraced = true)
    (hbelow : ∀ c ∈ k.children, ∀ d ∈ c.kind.children, d.Rereads) : (node a k).Rereads := by
  cases hk : k.category with
  | program =>
    cases k with
    | program => trivial
    | _ => cases hk
  | statement => exact rereads_statement here hformed ih (by simp [Kind.isStatement, hk]) hbraced
  | expression =>
    unfold Rereads
    rw [kind_node, hk]
    exact readsBack_of_formed here hformed ih (by simp [Kind.isExpression, hk])
  | declarator =>
    cases k with
    | declarator name init =>
      simp only [Kind.map, Kind.formed, Bool.and_eq_true, option_all_map_kind, Option.mem_toList]
        at here
      intro i rest hrest
      rw [text_eq_own rfl rfl]
      exact meets_declarator (fun t ht => (ih t (by simpa [Kind.children] using ht)).readsBack
        (here.2 t ht)) here.2 hrest here.1
    | _ => cases hk
  | param =>
    cases k with
    | param name fallback dots =>
      simp only [Kind.map, Kind.formed, Bool.and_eq_true, option_all_map_kind, Option.mem_toList]
        at here
      intro i rest hrest
      rw [text_eq_own rfl rfl]
      exact meets_param (fun t ht => (ih t (by simpa [Kind.children] using ht)).readsBack
        (here.1.2 t ht)) here.1.2 hrest here.1.1 dots
    | _ => cases hk
  | property =>
    cases k with
    | property key value shorthand method =>
      exact rereads_property here (hformed value (by simp [Kind.children]))
        (ih value (by simp [Kind.children])) (hbelow value (by simp [Kind.children]))
    | _ => cases hk

end Node

/-- Every well-formed tree is read back where it may stand, and so is every part of it. -/
theorem Formed.rereads {t : Tree Unit} (h : t.Formed) (hb : t.Braced) :
    t.Rereads ∧ ∀ c ∈ t.kind.children, c.Rereads := by
  induction t using Tree.induction_on with
  | node a k ih =>
    obtain ⟨here, below⟩ := formed_node.mp h
    obtain ⟨hbraced, hbelow⟩ := each_node.mp hb
    have ih : ∀ c ∈ k.children, c.Rereads ∧ ∀ d ∈ c.kind.children, d.Rereads :=
      fun c hc => ih c hc (below c hc) (hbelow c hc)
    exact ⟨rereads_node here below (fun c hc => (ih c hc).1) hbraced fun c hc => (ih c hc).2,
      fun c hc => (ih c hc).1⟩

/-- A program in which first branches need no braces is read back from its text. -/
theorem yields_program {body : List (Tree Unit)} (h : (node () (.program body)).Formed)
    (hb : (node () (.program body)).Braced) :
    (rule .program).Yields (body.flatMap fun s => s.layout.text .statement 0 ++ ['\n'])
      fun v _ => Builds (node () (.program body)) v := by
  have hbody : ∀ t ∈ body, MeetsStatement t := fun t ht =>
    ((h.rereads hb).2 t ht).meetsStatement (all_map_kind.mp (formed_node.mp h).1 t ht)
  have htext : (body.flatMap fun s => s.layout.text .statement 0 ++ ['\n'])
      = lines [] ['\n'] 0 body ++ [] := by simp [lines]
  have hempty : statement.Refuses (skip []) := refuses_of_starts 15 rfl rfl
  have hbefore : ∀ cs, skip ([] ++ cs) = skip cs := fun _ => rfl
  have hafter : ∀ cs, skip (['\n'] ++ cs) = skip cs := skip_newline
  have hlines := (reads_lines (i := 0) hbefore hafter hempty (by decide) hbody).1
  rw [htext]
  refine .rule (.span (.map (.seq (.seq (.succeed (Yields.mono hlines fun vs left hvs => ?_))))))
  rw [hvs.1]
  exact .rule (.lexeme rfl fun range => builds_program hvs.2 range)

end Tree

end Downlevel
