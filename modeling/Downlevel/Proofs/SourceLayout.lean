import Downlevel.Proofs.Annotations
import Downlevel.Proofs.Transparency
import Downlevel.Proofs.Unfolding

/-!
# The layout of a source has no influence

Two programs that differ in their layout only are parsed to stores that differ in their spans only, and
so have trees of one shape. Conversions of the two give the same text, and warnings that say the same
(`convert_ignores_layout`). What is rendered depends on the shape alone as well: neither on spans, nor
on the numbers of nodes, nor on nodes that the root does not lead to.
-/

namespace Downlevel

open Downlevel.Tree Construct

/-! ## Stores -/

namespace Store

variable {s s' : Store}

/-- The stores hold the same nodes under the same numbers, but for their spans. -/
structure SameButSpans (s s' : Store) : Prop where
  root : s.root = s'.root
  kinds : s.nodes.map Node.kind = s'.nodes.map Node.kind

namespace SameButSpans

variable (h : s.SameButSpans s')
include h

theorem size_eq : s.size = s'.size := by
  simpa [size] using congrArg Array.size h.kinds

theorem kind_eq (id : NodeId) : s.kind id = s'.kind id := by
  have hkind (s : Store) : s.kind id = ((s.nodes.map Node.kind)[id]?).getD default := by
    rw [kind, Store.node, Array.getD_eq_getD_getElem?, Array.getElem?_map]
    cases s.nodes[id]? <;> rfl
  rw [hkind, hkind, h.kinds]

theorem shape_unfold (depth : Nat) (id : NodeId) :
    (s.unfold depth id).shape = (s'.unfold depth id).shape := by
  induction depth generalizing id with
  | zero => rfl
  | succ depth ih =>
    rw [unfold, unfold, shape_node, shape_node, Kind.map_map, Kind.map_map, h.kind_eq]
    exact congrArg (Tree.node ()) (Kind.map_congr fun c _ => ih c)

theorem shape_toTree : s.toTree.shape = s'.toTree.shape := by
  rw [toTree, toTree, ← h.size_eq, ← h.root]
  exact h.shape_unfold _ _

end SameButSpans

/-- What is rendered depends on what the root unfolds to. -/
theorem code_render_congr (h : s.toTree.shape = s'.toTree.shape) : s.render.code = s'.render.code :=
  congrArg String.ofList (text_print_congr h)

end Store

/-! ## Conversions -/

/-- The diagnostics say the same. If it is about the output, they also point to the same place. -/
structure Diagnostic.Agrees (d d' : Diagnostic) : Prop where
  kind : d.kind = d'.kind
  message : d.message = d'.message
  location : d.kind = outputValidationFailure → d.location = d'.location

/-- The texts are the same, and there is the same to say about them. -/
structure Rendered.Agrees (r r' : Rendered) : Prop where
  code : r.code = r'.code
  warnings : List.Forall₂ Diagnostic.Agrees r.warnings r'.warnings

/-- The check of the output finds the same in the same text. -/
theorem Rendered.Agrees.validated {r r' : Rendered} (h : r.Agrees r') :
    r.validated.1.Agrees r'.validated.1 := by
  unfold Rendered.validated
  rw [h.code]
  rcases validate r'.code with ⟨problem, event⟩
  refine ⟨rfl, List.rel_append h.warnings ?_⟩
  exact List.forall₂_same.mpr fun d _ => ⟨rfl, rfl, fun _ => rfl⟩

theorem agrees_hoisted {t u : Tree Span} (h : t.shape = u.shape) :
    List.Forall₂ Diagnostic.Agrees (t.hoisted []) (u.hoisted []) := by
  have hcontent := content_hoisted_congr h []
  rw [← List.forall₂_eq_eq_eq, List.forall₂_map_left_iff, List.forall₂_map_right_iff] at hcontent
  have hkinds : ∀ d ∈ t.hoisted [], d.kind = Lowering.blockScopeHoisted := fun d => kind_of_mem_hoisted
  refine ((List.forall₂_and_left _ _).mpr ⟨hkinds, hcontent⟩).imp fun d d' ⟨hkind, hsame⟩ => ?_
  obtain ⟨hkind', hmessage⟩ := Prod.mk.inj hsame
  refine ⟨hkind', hmessage, fun hfailure => ?_⟩
  rw [hkind] at hfailure
  exact absurd hfailure (by decide)

/-- What passes and the printer make of programs of one shape. -/
theorem agrees_lowered (cs : List Construct) {t u : Tree Span} (h : t.shape = u.shape) :
    (lowered cs t).Agrees (lowered cs u) where
  code := by
    refine congrArg String.ofList (text_print_congr ?_)
    rw [shape_lowerAll, shape_lowerAll, h]
  warnings := by
    rw [lowered, lowered]
    split
    · exact agrees_hoisted h
    · exact .nil

/-- Without a directive, a conversion gives what the passes and the printer make of the program. -/
theorem result_convert_of_parse {source : String} {s : Store} (hparse : parse source .next = .ok s)
    (hplain : (Directive.strip source.toList).directive = none) (cs : List Construct) (validate : Bool) :
    (convert source { plugins := cs.map pass, validate }).result
      = .ok (if validate then (lowered cs s.toTree).validated.1 else lowered cs s.toTree) := by
  have hstrip := Directive.strip_of_directive_eq_none hplain
  have hsource : String.ofList (Directive.strip source.toList).body = source := by
    rw [hstrip, String.ofList_toList]
  have hm : Module.ofSource (String.ofList (Directive.strip source.toList).body)
      = .ok (.ofTree source s) := by
    rw [hsource]
    exact Module.ofSource_of_parse hparse
  rw [result_convert hm, hstrip, Rendered.under_none]
  rfl

/-- Sources that are parsed to the same nodes but for their spans are converted to the same text, with
warnings that say the same, by whatever passes of the catalog. Stores that unfold to the same tree from
their roots are rendered as the same text. -/
theorem convert_ignores_layout :
    (∀ (source source' : String) (s s' : Store),
      (Directive.strip source.toList).directive = none →
      (Directive.strip source'.toList).directive = none →
      parse source .next = .ok s → parse source' .next = .ok s' → s.SameButSpans s' →
      ∀ plugins : List Pass, (∀ p ∈ plugins, p ∈ catalog) → ∀ validate : Bool,
        ∃ r r', (convert source { plugins, validate }).result = .ok r ∧
          (convert source' { plugins, validate }).result = .ok r' ∧ r.Agrees r') ∧
    ∀ (s s' : Store) (t : Tree Unit), s.Unfolds s.root t → s'.Unfolds s'.root t →
      s.render.code = s'.render.code := by
  constructor
  · intro source source' s s' hplain hplain' hparse hparse' hsame plugins hcatalog validate
    obtain ⟨cs, rfl⟩ := exists_map_pass hcatalog
    refine ⟨_, _, result_convert_of_parse hparse hplain cs validate,
      result_convert_of_parse hparse' hplain' cs validate, ?_⟩
    have hagrees := agrees_lowered cs hsame.shape_toTree
    cases validate with
    | false => exact hagrees
    | true => exact hagrees.validated
  · intro s s' t h h'
    exact Store.code_render_congr (h.shape_below.trans h'.shape_below.symm)

/-! ### One program in two layouts -/

def compactCube : String :=
  "\x7blet y=2**3;\x7d"

def spreadCube : String :=
  "// A cube\n\x7b\n  let y = 2 /* é */ ** 3;\n\x7d\n"

theorem sameButSpans_layouts :
    ∃ s s', parse compactCube .next = .ok s ∧ parse spreadCube .next = .ok s' ∧
      s.SameButSpans s' ∧ s ≠ s' := by
  have hread : ((parse compactCube .next).toOption.any fun s =>
      (parse spreadCube .next).toOption.any fun s' =>
        decide (s.root = s'.root ∧ s.nodes.map Node.kind = s'.nodes.map Node.kind ∧
          s.nodes.map Node.span ≠ s'.nodes.map Node.span)) = true := by
    decide +kernel
  cases hs : parse compactCube .next with
  | error e =>
    rw [hs] at hread
    cases hread
  | ok s =>
    cases hs' : parse spreadCube .next with
    | error e =>
      rw [hs, hs'] at hread
      cases hread
    | ok s' =>
      rw [hs, hs'] at hread
      obtain ⟨hroot, hkinds, hspans⟩ := of_decide_eq_true hread
      exact ⟨s, s', rfl, rfl, ⟨hroot, hkinds⟩, fun h => hspans (by rw [h])⟩

/-- A sum of a number and itself, stored once. -/
def sharedNumber : Store :=
  ⟨#[⟨.program [1], {}⟩, ⟨.expressionStatement 2, {}⟩, ⟨.binary .add 3 3, {}⟩, ⟨.number "1", {}⟩], 0⟩

/-- The same sum with the number stored twice, and a node that the root does not lead to. -/
def copiedNumber : Store :=
  ⟨#[⟨.this, {}⟩, ⟨.program [3], {}⟩, ⟨.number "7", {}⟩,
    ⟨.expressionStatement 4, ⟨⟨1, 1, 1⟩, ⟨4, 1, 4⟩⟩⟩, ⟨.binary .add 5 6, {}⟩, ⟨.number "1", {}⟩,
    ⟨.number "1", ⟨⟨3, 1, 3⟩, ⟨4, 1, 4⟩⟩⟩], 1⟩

theorem convert_ignores_layout_twoLayouts :
    (∃ s s', parse compactCube .next = .ok s ∧ parse spreadCube .next = .ok s' ∧
      s.SameButSpans s' ∧ s ≠ s' ∧
      ∃ r r', (convert compactCube { plugins := [blockScope.pass], validate := true }).result = .ok r ∧
        (convert spreadCube { plugins := [blockScope.pass], validate := true }).result = .ok r' ∧
        r.Agrees r') ∧
    ∃ t, sharedNumber.Unfolds sharedNumber.root t ∧ copiedNumber.Unfolds copiedNumber.root t ∧
      sharedNumber.render.code = copiedNumber.render.code := by
  constructor
  · obtain ⟨s, s', hs, hs', hsame, hne⟩ := sameButSpans_layouts
    refine ⟨s, s', hs, hs', hsame, hne, ?_⟩
    refine convert_ignores_layout.1 compactCube spreadCube s s' (by decide) (by decide) hs hs' hsame
      _ ?_ true
    simpa using blockScope.pass_mem_catalog
  · have hshared : sharedNumber.Acyclic := .of_lt (by decide +kernel)
    have hcopied : copiedNumber.Acyclic := .of_lt (by decide +kernel)
    have h := hshared.unfolds (show sharedNumber.root < sharedNumber.size by decide)
    have h' := hcopied.unfolds (show copiedNumber.root < copiedNumber.size by decide)
    have hshape : (copiedNumber.below copiedNumber.root).shape
        = (sharedNumber.below sharedNumber.root).shape :=
      rfl
    rw [hshape] at h'
    exact ⟨_, h, h', convert_ignores_layout.2 _ _ _ h h'⟩

end Downlevel
