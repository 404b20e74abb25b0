import Downlevel.Convert
import Downlevel.Proofs.Directive
import Downlevel.Proofs.Passes

/-!
# What a conversion gives

Whatever passes of the catalog run, in whatever order, converting a program that can be read gives the
text of the lowered program, with a warning for each declaration that leaves its block
(`result_convert`).
-/

namespace Downlevel

open Downlevel.Tree Construct

namespace Tree

variable {σ τ : Type}

/-! ## Features -/

theorem features_eq_nil_of_shape {t : Tree σ} {u : Tree τ} (h : t.shape = u.shape) :
    t.features = [] ↔ u.features = [] := by
  have hshape : t.shape.features = [] ↔ u.shape.features = [] := by rw [h]
  rwa [shape, shape, features_map, features_map, List.map_eq_nil_iff, List.map_eq_nil_iff] at hshape

/-- Braces are no feature. -/
theorem features_braced {t : Tree σ} (h : t.features = []) : t.braced.features = [] := by
  induction t using induction_on with
  | node a k ih =>
    obtain ⟨here, below⟩ := features_eq_nil_iff.mp h
    have hmap : (node a (k.map braced)).features = [] := by
      refine features_eq_nil_iff.mpr ⟨by rwa [Kind.feature?_map], fun d hd => ?_⟩
      rw [Kind.children_map] at hd
      obtain ⟨c, hc, rfl⟩ := List.mem_map.mp hd
      exact ih c hc (below c hc)
    rw [braced_node]
    generalize k.map braced = l at hmap
    unfold brace
    split
    · split
      · exact hmap
      · simpa [features_node, Kind.children, Kind.feature?] using hmap
    · exact hmap

/-- The text of a program without the constructs of the next dialect is read in the stable one. -/
theorem Formed.parse_print {t : Tree Span} (h : t.Formed) (hp : t.kind.category = .program)
    (hfeatures : t.features = []) (dialect : Dialect) :
    ∃ s, parse (String.ofList t.print.text) dialect = .ok s ∧ s.toTree.shape = t.braced.shape := by
  obtain ⟨raw, hraw, hshape⟩ := parseRaw_print h hp
  have hread : (parseRaw (String.ofList t.print.text).toList >>= checkDialect dialect) = .ok raw := by
    have hnone := (features_eq_nil_of_shape hshape).mpr (features_braced hfeatures)
    rw [String.toList_ofList, hraw]
    change checkDialect dialect raw = .ok raw
    unfold checkDialect
    split
    · rename_i heq
      rw [hnone] at heq
      cases heq
    · rfl
  obtain ⟨s, hs, htree⟩ := parse_of_parseRaw hread
  exact ⟨s, hs, htree.trans hshape⟩

end Tree

namespace Construct

variable {σ : Type}

/-! ## Sequences of lowerings -/

theorem formed_lowerAll {t : Tree σ} (h : t.Formed) (cs : List Construct) : (lowerAll cs t).Formed := by
  induction cs generalizing t with
  | nil => exact h
  | cons c cs ih => exact ih (formed_rebuild c h)

theorem category_lowerAll (cs : List Construct) (t : Tree σ) :
    (lowerAll cs t).kind.category = t.kind.category := by
  induction cs generalizing t with
  | nil => rfl
  | cons c cs ih => exact (ih _).trans (c.mild.category_rebuild t)

theorem lacks_lowerAll {c : Construct} {t : Tree σ} (h : Lacks c t) (cs : List Construct) :
    Lacks c (lowerAll cs t) := by
  induction cs generalizing t with
  | nil => exact h
  | cons c' cs ih => exact ih (h.rebuilt c')

/-- What has been lowered does not come back. -/
theorem lacks_lowerAll_append {t : Tree σ} (h : t.Formed) {before : List Construct} {c : Construct}
    (harrow : c = .restParam → Lacks .arrowFunction (lowerAll before t)) (after : List Construct) :
    Lacks c (lowerAll (before ++ c :: after) t) := by
  rw [lowerAll, List.foldl_append]
  exact lacks_lowerAll ((formed_lowerAll h before).lacks_rebuild harrow) after

theorem lacks_of_mem {t : Tree σ} (h : t.Formed) {cs : List Construct} {c : Construct} (hc : c ∈ cs)
    (hrest : c ≠ .restParam) : Lacks c (lowerAll cs t) := by
  obtain ⟨xs, ys, rfl⟩ := List.append_of_mem hc
  exact lacks_lowerAll_append h (fun h => absurd h hrest) ys

/-- After all lowerings, none of the constructs is left. Rest parameters of arrow functions are lowered
only after the functions are. -/
theorem lacks_all {t : Tree σ} (h : t.Formed) {cs : List Construct} (hall : ∀ c, c ∈ cs)
    (harrow : [.arrowFunction, .restParam].Sublist cs) (c : Construct) : Lacks c (lowerAll cs t) := by
  by_cases hc : c = .restParam
  · subst hc
    obtain ⟨xs, ys, rfl, hx, hy⟩ := List.append_sublist_iff.mp
      (show ([arrowFunction] ++ [restParam]).Sublist cs from harrow)
    obtain ⟨us, vs, rfl⟩ := List.append_of_mem (List.singleton_sublist.mp hy)
    rw [← List.append_assoc]
    exact lacks_lowerAll_append h (fun _ => lacks_of_mem h
      (List.mem_append_left us (List.singleton_sublist.mp hx)) (by decide)) vs
  · exact lacks_of_mem h (hall c) hc

theorem features_lowerAll {t : Tree σ} (h : t.Formed) (hp : t.kind.category = .program)
    {cs : List Construct} (hall : ∀ c, c ∈ cs)
    (harrow : [.arrowFunction, .restParam].Sublist cs) : (lowerAll cs t).features = [] := by
  have hparam : (lowerAll cs t).kind.category ≠ .param := by
    rw [category_lowerAll, hp]
    nofun
  exact (formed_lowerAll h cs).features_eq_nil
    ⟨Kind.hasDefault_eq_false hparam, Kind.isRest_eq_false hparam⟩ (lacks_all h hall harrow)

end Construct

/-! ## The result -/

/-- What passes and the printer make of a program. -/
def lowered (cs : List Construct) (t : Tree Span) : Rendered :=
  ⟨String.ofList (lowerAll cs t).print.text, if .blockScope ∈ cs then t.hoisted [] else []⟩

theorem render_runAll {source : String} {m : Module} (h : Module.ofSource source = .ok m)
    (cs : List Construct) :
    ∃ m', m.runAll (cs.map pass) = (.ok (), m') ∧ m'.render = lowered cs m.tree.toTree := by
  obtain ⟨hnone, t, hholds, hformed, hprogram⟩ := Module.exists_holds_of_ofSource h
  obtain ⟨m', t', hrun, hholds', hplain, hdiag⟩ := runAll_passes hholds cs
  refine ⟨m', hrun, ?_⟩
  have hwarnings : (lowerAll cs t.plain).print.warnings = [] :=
    warnings_print (formed_lowerAll hformed cs) ((category_lowerAll cs t.plain).trans hprogram)
  rw [Module.render, Store.render, hholds'.toTree, hholds.toTree, hplain, hdiag, hnone, hwarnings,
    reportAll_eq hformed]
  simp [lowered]

theorem Module.result_convert {source : String} {m : Module} (h : ofSource source = .ok m)
    (split : Directive.Split) (cs : List Construct) (validate : Bool) :
    (m.convert split { plugins := cs.map pass, validate }).result
      = .ok ((if validate then (lowered cs m.tree.toTree).validated.1
          else lowered cs m.tree.toTree).under split) := by
  obtain ⟨m', hrun, hrender⟩ := render_runAll h cs
  rw [Module.convert, hrun]
  dsimp only
  rw [hrender]
  rcases (lowered cs m.tree.toTree).validated with ⟨r, event⟩
  cases validate <;> rfl

theorem result_convert {source : String} {m : Module}
    (h : Module.ofSource (String.ofList (Directive.strip source.toList).body) = .ok m)
    (cs : List Construct) (validate : Bool) :
    (convert source { plugins := cs.map pass, validate }).result
      = .ok ((if validate then (lowered cs m.tree.toTree).validated.1
          else lowered cs m.tree.toTree).under (Directive.strip source.toList)) := by
  unfold convert
  extract_lets split
  split
  · rename_i heq
    cases h.symm.trans heq
  · rename_i m' heq
    obtain rfl : m = m' := Except.ok.inj (h.symm.trans heq)
    exact Module.result_convert h split cs validate

theorem validate_of_parse {code : String} {s : Store} (h : parse code .stable = .ok s) :
    (validate code).1 = none := by
  unfold validate
  split
  · rfl
  · rename_i heq
    cases h.symm.trans heq

theorem Rendered.validated_of_parse {r : Rendered} {s : Store} (h : parse r.code .stable = .ok s) :
    r.validated.1 = r := by
  have hvalid := validate_of_parse h
  unfold validated
  rcases hv : Downlevel.validate r.code with ⟨problem, event⟩
  rw [hv] at hvalid
  obtain rfl : problem = none := hvalid
  simp

/-- Text from which all constructs are gone passes the check. -/
theorem parse_lowered {source : String} {m : Module} (h : Module.ofSource source = .ok m)
    {cs : List Construct} (hall : ∀ c, c ∈ cs) (harrow : [arrowFunction, restParam].Sublist cs)
    (dialect : Dialect) :
    ∃ s, parse (lowered cs m.tree.toTree).code dialect = .ok s ∧
      s.toTree.shape = (lowerAll cs m.tree.toTree).braced.shape := by
  obtain ⟨-, t, hholds, hformed, hprogram⟩ := Module.exists_holds_of_ofSource h
  rw [hholds.toTree]
  exact (formed_lowerAll hformed cs).parse_print ((category_lowerAll cs _).trans hprogram)
    (features_lowerAll hformed hprogram hall harrow) dialect

/-- With all constructs lowered, the check adds nothing. -/
theorem result_convert_all {source : String} {m : Module}
    (h : Module.ofSource (String.ofList (Directive.strip source.toList).body) = .ok m)
    {cs : List Construct} (hall : ∀ c, c ∈ cs) (harrow : [arrowFunction, restParam].Sublist cs) :
    (convert source { plugins := cs.map pass, validate := true }).result
      = .ok ((lowered cs m.tree.toTree).under (Directive.strip source.toList)) := by
  obtain ⟨s, hs, -⟩ := parse_lowered h hall harrow .stable
  rw [result_convert h, if_pos rfl, Rendered.validated_of_parse hs]

theorem result_convert_catalog {source : String} {m : Module}
    (h : Module.ofSource (String.ofList (Directive.strip source.toList).body) = .ok m) :
    (convert source).result
      = .ok ((lowered all m.tree.toTree).under (Directive.strip source.toList)) := by
  have hdefault : ({} : Options) = { plugins := all.map pass, validate := true } :=
    congrArg (Options.mk · true) catalog_eq
  rw [hdefault]
  exact result_convert_all h mem_all (by decide)

theorem result_convert_error {source : String} {e : ParseError}
    (h : Module.ofSource (String.ofList (Directive.strip source.toList).body) = .error e)
    (options : Options) :
    (convert source options).result
      = .error (.parse (e.shift (Directive.strip source.toList).lineOffset)) := by
  unfold convert
  extract_lets split
  split
  · rename_i heq
    obtain rfl : e = _ := Except.error.inj (h.symm.trans heq)
    rfl
  · rename_i heq
    cases h.symm.trans heq

/-- Nothing is converted that is not read. -/
theorem exists_module_of_convert {source : String} {r : Rendered}
    (h : (convert source).result = .ok r) :
    ∃ m, Module.ofSource (String.ofList (Directive.strip source.toList).body) = .ok m ∧
      (lowered all m.tree.toTree).under (Directive.strip source.toList) = r := by
  cases hm : Module.ofSource (String.ofList (Directive.strip source.toList).body) with
  | error e =>
    rw [result_convert_error hm] at h
    cases h
  | ok m =>
    rw [result_convert_catalog hm] at h
    exact ⟨m, rfl, Except.ok.inj h⟩

theorem sublist_of_map {cs : List Construct} (c c' : Construct)
    (h : [c.pass, c'.pass].Sublist (cs.map pass)) : [c, c'].Sublist cs := by
  obtain ⟨cs', hcs', heq⟩ := List.sublist_map_iff.mp h
  rwa [pass_injective.list_map (show [c, c'].map pass = cs'.map pass from heq)]

theorem kind_of_mem_hoisted {t : Tree Span} {w : Diagnostic} (h : w ∈ t.hoisted []) :
    w.kind = Lowering.blockScopeHoisted := by
  obtain ⟨⟨above, ⟨span, k⟩⟩, -, hw⟩ := List.mem_filterMap.mp h
  rw [warning?] at hw
  split at hw
  · cases k with
    | declaration keyword =>
      cases keyword <;> simp only [hoistWarning?, reduceCtorEq, Option.some.injEq] at hw <;> subst hw <;>
        rfl
    | _ => cases hw
  · cases hw

/-- Whenever the passes of all constructs run, and that for rest parameters after that for arrow
functions, the output is a program of the stable dialect. -/
theorem convert_stable {source : String} {s : Store} {plugins : List Pass}
    (hsource : parse (String.ofList (Directive.strip source.toList).body) .next = .ok s)
    (hcatalog : ∀ p ∈ plugins, p ∈ catalog) (hall : ∀ p ∈ catalog, p ∈ plugins)
    (horder : [Lowering.arrows.toPass, Lowering.restParams.toPass].Sublist plugins) :
    ∃ r : Rendered,
      (convert source { plugins, validate := true }).result
        = .ok (r.under (Directive.strip source.toList)) ∧
      (∀ w ∈ (r.under (Directive.strip source.toList)).warnings,
        w.kind ≠ outputValidationFailure ∧ w.kind ≠ renderFallback) ∧
      ∃ s', parse r.code .stable = .ok s' := by
  have hm := Module.ofSource_of_parse hsource
  obtain ⟨cs, rfl⟩ := exists_map_pass hcatalog
  have hcs : ∀ c, c ∈ cs := fun c =>
    (List.mem_map_of_injective pass_injective).mp (hall c.pass c.pass_mem_catalog)
  have harrow := sublist_of_map arrowFunction restParam horder
  obtain ⟨s', hs', -⟩ := parse_lowered hm hcs harrow .stable
  refine ⟨_, result_convert_all hm hcs harrow, ?_, s', hs'⟩
  intro w hw
  rw [lowered, if_pos (hcs .blockScope)] at hw
  obtain ⟨w', hw', rfl⟩ := List.mem_map.mp hw
  have hkind : w'.kind = Lowering.blockScopeHoisted := kind_of_mem_hoisted hw'
  rw [show (w'.shift _).kind = w'.kind from rfl, hkind]
  decide

/-- The same program under a directive. -/
def script : String :=
  "#!/bin/next\n" ++ everyConstruct

theorem parse_script :
    ∃ s, parse (String.ofList (Directive.strip script.toList).body) .next = .ok s := by
  have hbody : String.ofList (Directive.strip script.toList).body = everyConstruct := by
    decide +kernel
  rw [hbody]
  exact parse_everyConstruct

theorem convert_stable_script :
    (∃ s, parse (String.ofList (Directive.strip script.toList).body) .next = .ok s) ∧
      ∃ r : Rendered,
        (convert script
          { plugins := Lowering.restParams.toPass :: (catalog ++ catalog), validate := true }).result
            = .ok (r.under (Directive.strip script.toList)) ∧
        (∀ w ∈ (r.under (Directive.strip script.toList)).warnings,
          w.kind ≠ outputValidationFailure ∧ w.kind ≠ renderFallback) ∧
        ∃ s', parse r.code .stable = .ok s' := by
  obtain ⟨s, hs⟩ := parse_script
  refine ⟨⟨s, hs⟩, convert_stable hs ?_ ?_ ?_⟩
  · intro p hp
    simp only [List.mem_cons, List.mem_append, or_self] at hp
    rcases hp with rfl | hp
    · exact restParam.pass_mem_catalog
    · exact hp
  · exact fun p hp => List.mem_cons_of_mem _ (List.mem_append_left _ hp)
  · have hcatalog : [Lowering.arrows.toPass, Lowering.restParams.toPass].Sublist catalog :=
      List.Sublist.map pass (show [arrowFunction, restParam].Sublist all by decide)
    exact (hcatalog.trans (List.sublist_append_left _ _)).cons _

/-- The order of the passes does not matter, as long as rest parameters come after arrow functions and
defaults. -/
theorem convert_perm {plugins : List Pass} (hperm : plugins.Perm catalog)
    (harrow : [Lowering.arrows.toPass, Lowering.restParams.toPass].Sublist plugins)
    (hdefault : [Lowering.defaultParams.toPass, Lowering.restParams.toPass].Sublist plugins)
    (source : String) :
    (convert source { plugins, validate := true }).result = (convert source).result := by
  obtain ⟨cs, rfl⟩ := exists_map_pass fun p hp => hperm.mem_iff.mp hp
  have hcs : cs.Perm all := (List.map_perm_map_iff pass_injective).mp hperm
  have hall : ∀ c, c ∈ cs := fun c => hcs.mem_iff.mpr (mem_all c)
  have harrow' := sublist_of_map arrowFunction restParam harrow
  have hdefault' := sublist_of_map defaultParam restParam hdefault
  cases h : Module.ofSource (String.ofList (Directive.strip source.toList).body) with
  | error e => rw [result_convert_error h, result_convert_error h]
  | ok m =>
    have hlowered : lowered cs m.tree.toTree = lowered all m.tree.toTree := by
      rw [lowered, lowered, if_pos (hall .blockScope), if_pos (mem_all .blockScope),
        lowerAll_eq_lower (inOrder_of_nodup (hcs.nodup_iff.mpr nodup_all) harrow' hdefault') hall,
        lowerAll_eq_lower inOrder_all mem_all]
    rw [result_convert_all h hall harrow', hlowered, result_convert_catalog h]

/-- The order of the catalog backwards, but with rest parameters at the end. -/
def backwards : List Construct :=
  [blockScope, powerOperator, templateLiteral, shorthandProperty, defaultParam, conciseMethod,
    arrowFunction, restParam]

theorem convert_perm_backwards :
    (backwards.map pass).Perm catalog ∧
      (convert script { plugins := backwards.map pass, validate := true }).result
        = (convert script).result := by
  have hperm : (backwards.map pass).Perm catalog := by
    rw [catalog_eq]
    exact List.Perm.map pass (by decide)
  have hsublist (c : Construct) (h : [c, restParam].Sublist backwards) :
      [c.pass, restParam.pass].Sublist (backwards.map pass) := h.map pass
  exact ⟨hperm, convert_perm hperm (hsublist arrowFunction (by decide))
    (hsublist defaultParam (by decide)) script⟩

end Downlevel
