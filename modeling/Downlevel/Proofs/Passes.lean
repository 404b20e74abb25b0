import Downlevel.Proofs.Absence
import Downlevel.Proofs.Fusion
import Downlevel.Proofs.Parsed
import Downlevel.Proofs.RoundTrip
import Downlevel.Proofs.Sweep

/-!
# Sequences of passes

The catalog has one pass for each construct (`Construct.catalog_eq`). A sequence of its passes always
runs to its end, and leaves the tree that the lowerings make, one after another (`runAll_passes`). If
the tree is a well-formed program, the only reports are those about the declarations that leave their
blocks in it, whatever has run before they were looked at (`Formed.reportAll_eq`). On what a program
is read to, the whole catalog does what the one recursion `Tree.lower` does (`runAll_catalog`).
-/

namespace Downlevel

open Downlevel.Tree

namespace Construct

/-- The constructs, in the order of the catalog. -/
def all : List Construct :=
  [arrowFunction, conciseMethod, defaultParam, restParam, shorthandProperty, templateLiteral,
    powerOperator, blockScope]

theorem mem_all (c : Construct) : c ∈ all := by
  cases c <;> decide

theorem nodup_all : all.Nodup := by
  decide

/-- The pass that lowers a construct. -/
def pass (c : Construct) : Pass :=
  c.plugin.toPass

theorem catalog_eq : catalog = all.map pass := rfl

theorem pass_mem_catalog (c : Construct) : c.pass ∈ catalog := by
  rw [catalog_eq]
  exact List.mem_map_of_mem (mem_all c)

/-- Passes for different constructs have different names. -/
theorem pass_injective : Function.Injective pass := by
  intro c c' h
  have hname : c.plugin.name = c'.plugin.name := congrArg Pass.name h
  cases c <;> cases c' <;> first | rfl | exact absurd hname (by decide)

/-- A sequence of passes of the catalog is one of constructs. -/
theorem exists_map_pass {ps : List Pass} (h : ∀ p ∈ ps, p ∈ catalog) :
    ∃ cs : List Construct, cs.map pass = ps := by
  have hrange : ps ∈ Set.range (List.map pass) := by
    rw [Set.range_list_map]
    intro p hp
    have hp' := h p hp
    rw [catalog_eq] at hp'
    obtain ⟨c, -, rfl⟩ := List.mem_map.mp hp'
    exact ⟨c, rfl⟩
  exact hrange

/-- What passes report, each about the tree it finds. -/
def reportAll : List Construct → Tree Span → List Diagnostic
  | [], _ => []
  | c :: cs, t => c.reports t ++ reportAll cs (rebuild c.step t)

/-- What is left to report on a program, if declarations still have block scope. -/
theorem reportAll_eq {t : Tree Span} (h : t.Formed) (cs : List Construct) :
    reportAll cs t = if blockScope ∈ cs then t.hoisted [] else [] := by
  induction cs generalizing t with
  | nil => rfl
  | cons c cs ih =>
    rw [reportAll, ih (formed_rebuild c h)]
    by_cases hc : c = blockScope
    · subst hc
      rw [show blockScope.step = (scopeStep : Step Span) from rfl, hoisted_rebuild_scopeStep, ite_self,
        List.append_nil, if_pos List.mem_cons_self]
      rfl
    · have hreports : c.reports t = [] := by
        cases c <;> first | rfl | exact absurd rfl hc
      rw [hreports, List.nil_append, hoisted_rebuild hc h]
      simp only [List.mem_cons, Ne.symm hc, false_or]

end Construct

open Construct

/-! ## Running them -/

/-- A pass that is one of several does what it does alone, but for the log. -/
theorem runLogged_pass {m : Module} {t : Tree Label} (h : m.tree.Holds t) (c : Construct) :
    ∃ m' t', c.pass.runLogged m = (.ok (), m') ∧ m'.tree.Holds t' ∧
      t'.plain = rebuild c.step t.plain ∧ m'.diagnostics = m.diagnostics ++ c.reports t.plain := by
  obtain ⟨walked, m', t', hrun, hholds, hplain, hdiag⟩ := c.lowers { m with log := [] } t h
  let finished : Log.Entry := { event := .passFinished walked.entered walked.stopped }
  refine ⟨{ m' with log := m.log ++ (m'.log ++ [finished]).map c.pass.sign }, t', ?_, hholds, hplain,
    hdiag⟩
  rw [Pass.runLogged, show c.pass.run = c.plugin.run from rfl, hrun]

/-- A sequence of passes runs to its end. -/
theorem runAll_passes {m : Module} {t : Tree Label} (h : m.tree.Holds t) (cs : List Construct) :
    ∃ m' t', m.runAll (cs.map pass) = (.ok (), m') ∧ m'.tree.Holds t' ∧
      t'.plain = lowerAll cs t.plain ∧ m'.diagnostics = m.diagnostics ++ reportAll cs t.plain := by
  induction cs generalizing m t with
  | nil => exact ⟨_, t, rfl, h, rfl, (List.append_nil _).symm⟩
  | cons c cs ih =>
    obtain ⟨m₁, t₁, hrun, hholds, hplain, hdiag⟩ := runLogged_pass h c
    obtain ⟨m', t', hrun', hholds', hplain', hdiag'⟩ := ih hholds
    refine ⟨m', t', ?_, hholds', ?_, ?_⟩
    · rw [List.map_cons, Module.runAll, hrun]
      exact hrun'
    · rw [hplain', hplain]
      rfl
    · rw [hdiag', hdiag, hplain, List.append_assoc]
      rfl

/-! ## On a program that has been read -/

theorem Module.ofSource_of_parse {source : String} {s : Store} (h : parse source .next = .ok s) :
    ofSource source = .ok (ofTree source s) := by
  rw [ofSource, h]
  rfl

theorem Module.exists_parse_of_ofSource {source : String} {m : Module} (h : ofSource source = .ok m) :
    ∃ s, parse source .next = .ok s ∧ ofTree source s = m := by
  cases hs : parse source .next with
  | error e =>
    rw [ofSource, hs] at h
    cases h
  | ok s =>
    rw [ofSource_of_parse hs] at h
    exact ⟨s, rfl, Except.ok.inj h⟩

/-- What is read is what the grammar makes of the source, whatever the dialect. -/
theorem exists_raw_of_parse {source : String} {dialect : Dialect} {s : Store}
    (h : parse source dialect = .ok s) :
    ∃ raw, parseRaw source.toList = .ok raw ∧
      s = .ofTree (raw.map (LineIndex.ofText source.toList).span) := by
  unfold parse parseTree at h
  dsimp only at h
  cases hraw : parseRaw source.toList with
  | error e =>
    rw [hraw] at h
    cases h
  | ok raw =>
    rw [hraw, show (Except.ok raw >>= checkDialect dialect) = checkDialect dialect raw from rfl] at h
    cases hcheck : checkDialect dialect raw with
    | error e =>
      rw [hcheck] at h
      cases h
    | ok raw' =>
      obtain rfl : raw = raw' := by
        unfold checkDialect at hcheck
        split at hcheck
        · cases hcheck
        · exact Except.ok.inj hcheck
      rw [hcheck] at h
      exact ⟨raw, rfl, (Except.ok.inj h).symm⟩

/-- It is stored as a well-formed program, and nothing else is. -/
theorem exists_holds_of_parse {source : String} {dialect : Dialect} {s : Store}
    (h : parse source dialect = .ok s) :
    ∃ t, s.Holds t ∧ t.plain.Formed ∧ t.plain.kind.category = .program ∧ t.cells.card = s.size := by
  obtain ⟨raw, hraw, rfl⟩ := exists_raw_of_parse h
  obtain ⟨hformed, hprogram⟩ := parseRaw_formed hraw
  obtain ⟨t, hholds, hplain, hcard⟩ :=
    Store.exists_holds_ofTree (raw.map (LineIndex.ofText source.toList).span)
  refine ⟨t, hholds, ?_, ?_, hcard⟩
  · rw [hplain]
    exact formed_map.mpr hformed
  · rwa [hplain, kind_map, Kind.category_map]

theorem Module.exists_holds_of_ofSource {source : String} {m : Module}
    (h : ofSource source = .ok m) :
    m.diagnostics = [] ∧
      ∃ t, m.tree.Holds t ∧ t.plain.Formed ∧ t.plain.kind.category = .program := by
  obtain ⟨s, hs, rfl⟩ := exists_parse_of_ofSource h
  obtain ⟨t, hholds, hformed, hprogram, -⟩ := exists_holds_of_parse hs
  exact ⟨rfl, t, hholds, hformed, hprogram⟩

theorem inOrder_all : InOrder all :=
  inOrder_of_nodup nodup_all (by decide) (by decide)

/-- On what a program is read to, the catalog does what the one recursion `lower` does. -/
theorem runAll_catalog {source : String} {m : Module} (h : Module.ofSource source = .ok m) :
    ∃ m', m.runAll catalog = (.ok (), m') ∧ m'.tree.toTree = m.tree.toTree.lower := by
  obtain ⟨-, t, hholds, -⟩ := Module.exists_holds_of_ofSource h
  obtain ⟨m', t', hrun, hholds', hplain, -⟩ := runAll_passes hholds all
  refine ⟨m', catalog_eq ▸ hrun, ?_⟩
  rw [hholds'.toTree, hholds.toTree, hplain, lowerAll_eq_lower inOrder_all mem_all]

/-- A program with every construct that the catalog lowers. -/
def everyConstruct : String :=
  "if (a) \x7b\n  let f = (b = 2 ** c, ...d) => `$\x7bthis.b\x7d!`;\n\x7d\ng = \x7b a, m() \x7b \x7d \x7d;\n"

theorem parse_everyConstruct : ∃ s, parse everyConstruct .next = .ok s := by
  have hread : (parseRaw everyConstruct.toList).isOk = true := by decide +kernel
  cases hraw : parseRaw everyConstruct.toList with
  | error e =>
    rw [hraw] at hread
    cases hread
  | ok raw =>
    have hnext : (parseRaw everyConstruct.toList >>= checkDialect .next) = .ok raw := by
      rw [hraw]
      exact checkDialect_next raw
    obtain ⟨s, hs, -⟩ := parse_of_parseRaw hnext
    exact ⟨s, hs⟩

theorem runAll_catalog_everyConstruct :
    ∃ m, Module.ofSource everyConstruct = .ok m ∧
      ∃ m', m.runAll catalog = (.ok (), m') ∧ m'.tree.toTree = m.tree.toTree.lower := by
  obtain ⟨s, hs⟩ := parse_everyConstruct
  have h := Module.ofSource_of_parse hs
  exact ⟨_, h, runAll_catalog h⟩

end Downlevel
