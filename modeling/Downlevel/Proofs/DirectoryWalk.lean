import Downlevel.Proofs.Visiting

/-!
# Walking through a directory

A conversion of a directory attempts the files that it visits, one after another, and does nothing else,
unless it comes to a directory that cannot be listed (`Converter.attempts_convertWithin`). Directories
are listed while files are written, perhaps in the very
directory that is walked through. The walk still goes as it would have gone before, if it passes over all
that is new, or if nothing new comes to stand in a directory that has yet to be listed
(`Converter.Undisturbed`).
-/

namespace Downlevel

namespace Summary

theorem merge_assoc (s s' s'' : Summary) : (s.merge s').merge s'' = s.merge (s'.merge s'') := by
  simp [merge, Nat.add_assoc]

@[simp] theorem merge_empty (s : Summary) : s.merge {} = s := by
  simp [merge]

@[simp] theorem empty_merge (s : Summary) : merge {} s = s := by
  simp [merge]

/-- The summary of the files of a number of summaries. -/
def total : List Summary → Summary
  | [] => {}
  | s :: ss => s.merge (total ss)

theorem total_append (ss ss' : List Summary) : total (ss ++ ss') = (total ss).merge (total ss') := by
  induction ss with
  | nil => simp [total]
  | cons s ss ih => rw [List.cons_append, total, ih, total, merge_assoc]

theorem errors_total (ss : List Summary) : (total ss).errors = ss.flatMap errors := by
  induction ss with
  | nil => rfl
  | cons s ss ih => simp [total, merge, ih]

theorem warnings_total (ss : List Summary) : (total ss).warnings = ss.flatMap warnings := by
  induction ss with
  | nil => rfl
  | cons s ss ih => simp [total, merge, ih]

/-- The summary of one file. -/
structure Single (s : Summary) : Prop where
  processed : s.processed = 1
  balance : s.converted + s.errors.length = 1

theorem Single.total {ss : List Summary} (h : ∀ s ∈ ss, s.Single) :
    (total ss).processed = ss.length ∧
      (total ss).processed = (total ss).converted + (total ss).errors.length := by
  induction ss with
  | nil => exact ⟨rfl, rfl⟩
  | cons s ss ih =>
    rw [List.forall_mem_cons] at h
    obtain ⟨hlength, hbalance⟩ := ih h.2
    have hprocessed := h.1.processed
    have hsingle := h.1.balance
    simp only [Summary.total, merge, List.length_append, List.length_cons]
    omega

end Summary

namespace Converter

variable {c : Converter} {t t' t₁ : FileTree} {source output : Path} {src out route : List String}

/-! ## One name in a directory -/

/-- What a walk does with one name in a directory. -/
def visit (c : Converter) (output : Path) (depth : Nat) (directory : Path) (route : List String)
    (summary : Summary) (name : String) : ExceptT FileError (StateM FileTree) Summary := do
  let path := directory.join ⟨name⟩
  let route := route ++ [name]
  if ← (FileSystem.isDirectory path : StateM FileTree Bool) then
    return summary.merge (← c.convertWithin output depth path route)
  else if c.selects path then
    let target ← liftExcept (c.target path output route)
    return summary.merge (← (c.attempt path target : StateM FileTree Summary))
  else return summary

theorem convertWithin_succ (c : Converter) (output : Path) (depth : Nat) (directory : Path)
    (route : List String) : c.convertWithin (m := StateM FileTree) output (depth + 1) directory route =
      perform .os (FileSystem.list directory) >>= fun names =>
        (sortNames names).foldlM (c.visit output depth directory route) {} := rfl

theorem run_visit (c : Converter) (output : Path) (depth : Nat) (directory : Path) (route : List String)
    (summary : Summary) (name : String) (t : FileTree) :
    (c.visit output depth directory route summary name).run.run t =
      if t.isDirectory (directory.join ⟨name⟩) then
        match (c.convertWithin (m := StateM FileTree) output depth (directory.join ⟨name⟩)
            (route ++ [name])).run.run t with
        | (.error e, t) => (.error e, t)
        | (.ok s, t) => (.ok (summary.merge s), t)
      else if c.selects (directory.join ⟨name⟩) then
        match c.target (directory.join ⟨name⟩) output (route ++ [name]) with
        | .error e => (.error e, t)
        | .ok target =>
          (.ok (summary.merge ((c.attempt (m := StateM FileTree) (directory.join ⟨name⟩) target).run t).1),
            ((c.attempt (m := StateM FileTree) (directory.join ⟨name⟩) target).run t).2)
      else (.ok summary, t) := by
  rw [visit, run_bind, run_lift]
  show (if t.isDirectory (directory.join ⟨name⟩) = true then _ else _ :
    ExceptT FileError (StateM FileTree) Summary).run.run t = _
  split
  · rw [run_bind]
    rcases (c.convertWithin (m := StateM FileTree) output depth (directory.join ⟨name⟩)
      (route ++ [name])).run.run t with ⟨e | s, t'⟩ <;> rfl
  · split
    · rw [run_bind]
      rcases c.target (directory.join ⟨name⟩) output (route ++ [name]) with e | target
      · rfl
      · exact run_bind ..
    · rfl

/-- A directory is no file. -/
theorem route_ne_nil_of_file (h : t.Opens source src) (hroute : (t.file? (src ++ route)).isSome = true) :
    route ≠ [] := by
  rintro rfl
  rw [List.append_nil, FileTree.file?_of_directory h.directory] at hroute
  cases hroute

/-- The path to a directory that is walked through leads there. -/
theorem resolve_directory (ht : t.WellFormed) (h : t.Opens source src) (htext : source.text ≠ "")
    (hnames : ∀ n ∈ route, IsName n) (hroute : t.entry? (src ++ route) = some .directory)
    (hshort : (source.down route).text.utf8ByteSize < 4096) :
    t.resolve (source.down route) = .ok (src ++ route) := by
  rcases List.eq_nil_or_concat' route with rfl | ⟨names, name, rfl⟩
  · rw [List.append_nil, Path.down_nil]
    exact FileTree.resolve_eq_ok.mpr ⟨h.sound.resolve_left htext, h.reach⟩
  · have habove : t.entry? (src ++ names) = some .directory :=
      ht.directory_of_prefix (by rw [hroute]; simp) (List.prefix_append _ _) (by simp)
    rw [FileTree.resolve_down ht h hnames, if_neg (by omega), FileTree.passage_of_directory habove]
    rfl

/-- A conversion under way: of a directory that can be walked through, into one that is there. What
comes of the file of a route goes to where `land` says below the latter. -/
structure Underway (c : Converter) (t : FileTree) (source output : Path) (src out : List String)
    (land : List String → List String) : Prop where
  wellFormed : t.WellFormed
  text : source.text ≠ ""
  opensSource : t.Opens source src
  opensOutput : t.Opens output out
  shortPaths : c.ShortPaths t source src
  targets : ∀ route, c.Wanted t src route →
    c.target (source.down route) output route = .ok (output.down (land route))
  lands : ∀ route, c.Wanted t src route → ∃ names segment, land route = names ++ [segment] ∧
    (∀ n ∈ names, IsName n) ∧ IsSegment segment

/-! ## What is written meanwhile -/

/-- Converts files, one after another. -/
def attempts (c : Converter) (source output : Path) (land : List String → List String) :
    List (List String) → FileTree → List Summary × FileTree
  | [], t => ([], t)
  | route :: routes, t =>
    let first := (c.attempt (m := StateM FileTree) (source.down route) (output.down (land route))).run t
    let others := c.attempts source output land routes first.2
    (first.1 :: others.1, others.2)

variable {land : List String → List String} {done routes : List (List String)}

theorem attempts_append (routes routes' : List (List String)) (t : FileTree) :
    c.attempts source output land (routes ++ routes') t =
      ((c.attempts source output land routes t).1 ++
          (c.attempts source output land routes' (c.attempts source output land routes t).2).1,
        (c.attempts source output land routes' (c.attempts source output land routes t).2).2) := by
  induction routes generalizing t with
  | nil => rfl
  | cons route routes ih => simp only [List.cons_append, attempts, ih]

/-- The tree after the files of some routes have been attempted. -/
structure Course (c : Converter) (t₁ : FileTree) (src out : List String) (land : List String → List String)
    (done : List (List String)) (t : FileTree) : Prop where
  wanted : ∀ route ∈ done, c.Wanted t₁ src route
  grows : FileTree.Grows (fun place => ∃ route ∈ done, place <+: out ++ land route)
    (fun place => ∃ route ∈ done, place = out ++ land route) t₁ t

namespace Course

theorem start (ht : t₁.WellFormed) : c.Course t₁ src out land [] t₁ :=
  ⟨nofun, .refl ht⟩

theorem attempt (h : c.Underway t₁ source output src out land) (hcourse : c.Course t₁ src out land done t)
    (hroute : c.Wanted t₁ src route) :
    c.Course t₁ src out land (done ++ [route])
        ((c.attempt (m := StateM FileTree) (source.down route) (output.down (land route))).run t).2 ∧
      FileTree.Grows (fun _ => True) (fun _ => True) t
        ((c.attempt (m := StateM FileTree) (source.down route) (output.down (land route))).run t).2 := by
  obtain ⟨names, segment, hland, hnames, hsegment⟩ := h.lands route hroute
  have hgrows := c.convertFile_grows hcourse.grows.wellFormed (h.opensOutput.grows hcourse.grows) hnames
    hsegment (source.down route)
  rw [← hland] at hgrows
  rw [run_attempt]
  refine ⟨⟨?_, ?_⟩, hgrows.mono (fun _ _ => trivial) fun _ _ => trivial⟩
  · exact List.forall_mem_append.mpr ⟨hcourse.wanted, List.forall_mem_singleton.mpr hroute⟩
  · refine FileTree.Grows.trans (hcourse.grows.mono ?_ ?_) (hgrows.mono ?_ ?_)
    · rintro place ⟨file, hfile, hplace⟩
      exact ⟨file, by simp [hfile], hplace⟩
    · rintro place ⟨file, hfile, hplace⟩
      exact ⟨file, by simp [hfile], hplace⟩
    · rintro _ ⟨above, habove, rfl⟩
      refine ⟨route, by simp, ?_⟩
      rw [hland]
      exact (List.prefix_append_right_inj out).mpr (habove.trans (List.prefix_append _ _))
    · rintro _ rfl
      exact ⟨route, by simp, rfl⟩

theorem attempts (h : c.Underway t₁ source output src out land)
    (hcourse : c.Course t₁ src out land done t) (hroutes : ∀ route ∈ routes, c.Wanted t₁ src route) :
    c.Course t₁ src out land (done ++ routes) (c.attempts source output land routes t).2 ∧
      FileTree.Grows (fun _ => True) (fun _ => True) t (c.attempts source output land routes t).2 := by
  induction routes generalizing done t with
  | nil =>
    rw [List.append_nil]
    exact ⟨hcourse, .refl hcourse.grows.wellFormed⟩
  | cons route routes ih =>
    rw [List.forall_mem_cons] at hroutes
    obtain ⟨hfirst, hgrows⟩ := hcourse.attempt h hroutes.1
    obtain ⟨hothers, hgrows'⟩ := ih hfirst hroutes.2
    rw [List.append_assoc, List.singleton_append] at hothers
    exact ⟨hothers, hgrows.trans hgrows'⟩

/-- What was not there before is on the way to what was written, and if it is a file, that is it. -/
theorem made (hcourse : c.Course t₁ src out land done t) {place : List String}
    (hnone : t₁.entry? place = none) (hsome : t.entry? place ≠ none) :
    ∃ route ∈ done, place <+: out ++ land route ∧
      (t.entry? place ≠ some .directory → place = out ++ land route) := by
  rcases hcourse.grows.entry place with he | ⟨⟨route, hroute, hprefix⟩, -, hdirectory⟩ |
      ⟨⟨route, hroute, rfl⟩, -⟩
  · exact absurd (he.trans hnone) hsome
  · exact ⟨route, hroute, hprefix, fun hne => absurd hdirectory hne⟩
  · exact ⟨route, hroute, List.prefix_rfl, fun _ => rfl⟩

end Course

/-- Nothing new that the walk may come upon is selected, but directories with short paths. -/
def Ignores (c : Converter) (t : FileTree) (source : Path) (src out : List String)
    (land : List String → List String) : Prop :=
  ∀ route x, c.Wanted t src route → src ++ x <+: out ++ land route → t.entry? (src ++ x) = none →
    c.selects (.ofSegments x) = true →
    src ++ x ≠ out ++ land route ∧ (source.join (.ofSegments x)).text.utf8ByteSize < 4096

/-- Nothing new comes to stand in a directory that is there and has its turn after the file that it comes
of. -/
def NeverAhead (c : Converter) (t : FileTree) (src out : List String)
    (land : List String → List String) : Prop :=
  ∀ route directory name, c.Wanted t src route → src ++ (directory ++ [name]) <+: out ++ land route →
    t.entry? (src ++ (directory ++ [name])) = none → t.entry? (src ++ directory) = some .directory →
    ¬ route < directory

/-- Whatever is written in the directory that is walked through, the walk goes as it would without. -/
def Undisturbed (c : Converter) (t : FileTree) (source : Path) (src out : List String)
    (land : List String → List String) : Prop :=
  c.Ignores t source src out land ∨ c.NeverAhead t src out land

theorem lt_of_lt_of_prefix {above below : List String} (h : route < above) (habove : above <+: below) :
    route < below := by
  by_contra hnot
  exact List.not_lt.mpr (List.le_trans habove.le (List.not_lt.mp hnot)) h

/-- Results that go to the same directory, or to one that lies apart, go to no directory whose turn has
not come, if each stays above its file. -/
theorem NeverAhead.of_apart (hapart : src = out ∨ ¬ src <+: out ∧ ¬ out <+: src)
    (hland : ∀ route, c.Wanted t src route → (land route).dropLast <+: route) :
    c.NeverAhead t src out land := by
  intro route directory name hwanted hprefix _ _
  rcases hapart with rfl | ⟨hsrc, hout⟩
  · obtain ⟨rest, hrest⟩ := (List.prefix_append_right_inj src).mp hprefix
    have habove : directory <+: (land route).dropLast := by
      rw [← hrest, List.append_assoc, List.dropLast_append_of_ne_nil (by simp)]
      exact List.prefix_append _ _
    exact List.not_lt.mpr (habove.trans (hland route hwanted)).le
  · have hbelow : src <+: out ++ land route := (List.prefix_append _ _).trans hprefix
    exact absurd (List.prefix_or_prefix_of_prefix hbelow (List.prefix_append out _))
      (not_or.mpr ⟨hsrc, hout⟩)

/-- A name that was not there before can be met in a directory only if all such are passed over. -/
theorem Course.ignores {directory : List String} {name : String}
    (hundisturbed : c.Undisturbed t₁ source src out land) (hcourse : c.Course t₁ src out land done t)
    (hbefore : ∀ route ∈ done, route < directory)
    (hdirectory : t₁.entry? (src ++ directory) = some .directory ∨ c.Ignores t₁ source src out land)
    (hnone : t₁.entry? (src ++ (directory ++ [name])) = none)
    (hsome : t.entry? (src ++ (directory ++ [name])) ≠ none) : c.Ignores t₁ source src out land := by
  rcases hundisturbed with hignores | hnever
  · exact hignores
  · refine hdirectory.resolve_left fun hthere => ?_
    obtain ⟨route, hroute, hprefix, -⟩ := hcourse.made hnone hsome
    exact hnever route directory name (hcourse.wanted route hroute) hprefix hnone hthere (hbefore route hroute)

/-! ## The walk -/

/-- A part of a walk that attempts these files, and nothing else, if it comes to its end. -/
def Attempts (c : Converter) (source output : Path) (land : List String → List String)
    (routes : List (List String)) (t : FileTree) (summary : Summary)
    (x : ExceptT FileError (StateM FileTree) Summary) : Prop :=
  ∀ total t', x.run.run t = (.ok total, t') →
    total = summary.merge (.total (c.attempts source output land routes t).1) ∧
      t' = (c.attempts source output land routes t).2

theorem attempts_of_run {x : ExceptT FileError (StateM FileTree) Summary} {summary : Summary}
    (h : x.run.run t = (.ok (summary.merge (.total (c.attempts source output land routes t).1)),
      (c.attempts source output land routes t).2)) :
    c.Attempts source output land routes t summary x := by
  intro total t' hrun
  cases h.symm.trans hrun
  exact ⟨rfl, rfl⟩

theorem attempts_nil {x : ExceptT FileError (StateM FileTree) Summary} {summary : Summary}
    (h : x.run.run t = (.ok summary, t)) : c.Attempts source output land [] t summary x :=
  attempts_of_run (by simpa [attempts, Summary.total] using h)

/-- What a walk through the first tree visits for a name, if it is there. -/
def visitedFor (c : Converter) (t : FileTree) (source : Path) (src : List String) (depth : Nat)
    (directory : List String) (name : String) : List (List String) :=
  if name ∈ t.namesIn (src ++ directory) then
    c.visitedAt t source (directory ++ [name]) (c.visited t source src depth (directory ++ [name]))
  else []


theorem flatMap_sortNames {names names' : List String} (h : names.Nodup) (h' : names'.Nodup)
    (hsub : ∀ name ∈ names, name ∈ names') (f : String → List (List String)) :
    (sortNames names').flatMap (fun name => if name ∈ names then f name else [])
      = (sortNames names).flatMap f := by
  have hflat (ns : List String) :
      ns.flatMap (fun name => if name ∈ names then f name else [])
        = (ns.filter (· ∈ names)).flatMap f := by
    induction ns with
    | nil => rfl
    | cons n ns ih => by_cases hn : n ∈ names <;> simp [hn, ih]
  have hfilter : (sortNames names').filter (· ∈ names) = sortNames names := by
    refine List.Perm.eq_of_pairwise ?_ ((pairwise_sortNames h').filter _) (pairwise_sortNames h) ?_
    · intro a b _ _ hab hba
      exact absurd hba (String.lt_asymm hab)
    · refine ((perm_sortNames names').filter _).trans (List.Perm.trans ?_ (perm_sortNames names).symm)
      refine (List.perm_ext_iff_of_nodup (h'.filter _) h).mpr fun name => ?_
      rw [List.mem_filter, decide_eq_true_iff]
      exact and_iff_right_of_imp (hsub name)
  rw [hflat, hfilter]

/-- In what is no directory, nothing is visited. -/
theorem visited_of_missing (ht : t.WellFormed) {directory : List String}
    (h : t.entry? (src ++ directory) ≠ some .directory) (depth : Nat) :
    c.visited t source src depth directory = [] := by
  cases depth with
  | zero => rfl
  | succ depth =>
    have hnone : t.namesIn (src ++ directory) = [] := by
      refine List.eq_nil_iff_forall_not_mem.mpr fun name hname => ?_
      rw [FileTree.mem_namesIn, ht.entry?_concat h] at hname
      cases hname
    rw [visited, hnone]
    rfl

section Visit

variable {directory : List String} {name : String} {depth : Nat}

/-- A directory is walked through where its turn has come. -/
theorem attempts_visit_below (hchild : t.isDirectory (source.down (directory ++ [name])) = true)
    (h : c.Attempts source output land routes t {}
      (c.convertWithin output depth (source.down (directory ++ [name])) (directory ++ [name])))
    (summary : Summary) : c.Attempts source output land routes t summary
      (c.visit output depth (source.down directory) directory summary name) := by
  intro total t' hrun
  rw [run_visit, ← Path.down_concat, if_pos hchild] at hrun
  split at hrun
  · cases hrun
  · rename_i s t'' hbelow
    cases hrun
    obtain ⟨rfl, rfl⟩ := h s _ hbelow
    rw [Summary.empty_merge]
    exact ⟨rfl, rfl⟩

variable (h : c.Underway t₁ source output src out land) (hcourse : c.Course t₁ src out land done t)
  (hdirectory : t.entry? (src ++ directory) = some .directory)
  (hbelow : t.isDirectory (source.down (directory ++ [name])) = true →
    c.Attempts source output land (c.visited t₁ source src depth (directory ++ [name])) t {}
      (c.convertWithin output depth (source.down (directory ++ [name])) (directory ++ [name])))
include h hcourse hdirectory hbelow

/-- What was there before is visited as it would have been then. -/
theorem attempts_visit_old (hthere : t₁.entry? (src ++ (directory ++ [name])) ≠ none)
    (summary : Summary) :
    c.Attempts source output land
      (c.visitedAt t₁ source (directory ++ [name]) (c.visited t₁ source src depth (directory ++ [name]))) t
      summary (c.visit output depth (source.down directory) directory summary name) := by
  have hnames := h.wellFormed.isName hthere
  have hdirectory₁ : t₁.entry? (src ++ directory) = some .directory :=
    h.wellFormed.directory_of_prefix hthere (List.prefix_append _ _) (by simp)
  have hsame : t.isDirectory (source.down (directory ++ [name])) =
      t₁.isDirectory (source.down (directory ++ [name])) := by
    rw [Bool.eq_iff_iff, isDirectory_down h.wellFormed h.opensSource hnames hdirectory₁,
      isDirectory_down hcourse.grows.wellFormed (h.opensSource.grows hcourse.grows) hnames hdirectory,
      (hcourse.grows.kind hthere).2]
  rw [visitedAt, ← hsame]
  by_cases hchild : t.isDirectory (source.down (directory ++ [name])) = true
  · rw [if_pos hchild]
    exact attempts_visit_below hchild (hbelow hchild) summary
  · rw [if_neg hchild]
    refine attempts_of_run ?_
    rw [run_visit, ← Path.down_concat, if_neg hchild]
    by_cases hselects : c.selects (source.down (directory ++ [name])) = true
    · have hwanted := wanted_of_selects h.wellFormed h.opensSource h.shortPaths hnames hdirectory₁
        (Option.isSome_iff_ne_none.mpr hthere) hselects (hsame ▸ hchild)
      rw [if_pos hselects, if_pos hselects, h.targets _ hwanted]
      simp [attempts, Summary.total]
    · rw [if_neg hselects, if_neg hselects]
      simp [attempts, Summary.total]

/-- What is new is passed over. -/
theorem attempts_visit_new (hignores : c.Ignores t₁ source src out land)
    (hnone : t₁.entry? (src ++ (directory ++ [name])) = none)
    (hsome : t.entry? (src ++ (directory ++ [name])) ≠ none) (summary : Summary) :
    c.Attempts source output land [] t summary
      (c.visit output depth (source.down directory) directory summary name) := by
  have hnames := hcourse.grows.wellFormed.isName hsome
  by_cases hchild : t.isDirectory (source.down (directory ++ [name])) = true
  · have hnothing := hbelow hchild
    rw [visited_of_missing h.wellFormed (by simp [hnone])] at hnothing
    exact attempts_visit_below hchild hnothing summary
  · obtain ⟨route, hroute, hprefix, hfile⟩ := hcourse.made hnone hsome
    have hselects : ¬ c.selects (source.down (directory ++ [name])) = true := by
      rw [c.selects_down source (by simp) hnames]
      intro hselects
      obtain ⟨hne, hshort⟩ := hignores route _ (hcourse.wanted route hroute) hprefix hnone hselects
      rw [source.join_ofSegments (by simp) hnames] at hshort
      rw [isDirectory_down hcourse.grows.wellFormed (h.opensSource.grows hcourse.grows) hnames
        hdirectory] at hchild
      exact hne (hfile fun hentry => hchild ⟨hshort, hentry⟩)
    refine attempts_nil ?_
    rw [run_visit, ← Path.down_concat, if_neg hchild, if_neg hselects]

end Visit

/-- A walk through names attempts the files it visits for each of them. Each has its turn after those
before it, in a tree that still holds what `t₀` did. -/
theorem attempts_foldlM (h : c.Underway t₁ source output src out land) {t₀ : FileTree}
    {visit : Summary → String → ExceptT FileError (StateM FileTree) Summary}
    {found : String → List (List String)} {directory names : List String}
    (hsorted : names.Pairwise (· < ·))
    (hvisit : ∀ name ∈ names, ∀ done t, c.Course t₁ src out land done t →
      (∀ route ∈ done, route < directory ++ [name]) →
      FileTree.Grows (fun _ => True) (fun _ => True) t₀ t → ∀ summary,
      c.Attempts source output land (found name) t summary (visit summary name))
    (hfound : ∀ name ∈ names, ∀ route ∈ found name,
      c.Wanted t₁ src route ∧ directory ++ [name] <+: route)
    (hcourse : c.Course t₁ src out land done t)
    (hbefore : ∀ route ∈ done, ∀ name ∈ names, route < directory ++ [name])
    (hgrows : FileTree.Grows (fun _ => True) (fun _ => True) t₀ t) (summary : Summary) :
    c.Attempts source output land (names.flatMap found) t summary (names.foldlM visit summary) := by
  induction names generalizing done t summary with
  | nil => exact attempts_nil rfl
  | cons name names ih =>
    rw [List.forall_mem_cons] at hvisit hfound
    obtain ⟨hlt, hsorted⟩ := List.pairwise_cons.mp hsorted
    have hfirst := hvisit.1 done t hcourse (fun route hroute => hbefore route hroute name (by simp)) hgrows
      summary
    obtain ⟨hcourse', hgrows'⟩ := hcourse.attempts h fun route hroute => (hfound.1 route hroute).1
    have hbefore' : ∀ route ∈ done ++ found name, ∀ later ∈ names, route < directory ++ [later] := by
      intro route hroute later hlater
      rcases List.mem_append.mp hroute with hroute | hroute
      · exact hbefore route hroute later (List.mem_cons_of_mem _ hlater)
      · obtain ⟨rest, rfl⟩ := (hfound.1 route hroute).2
        rw [List.append_assoc]
        exact List.append_left_lt (List.cons_lt_cons_iff.mpr (.inl (hlt later hlater)))
    have hothers := ih hsorted hvisit.2 hfound.2 hcourse' hbefore' (hgrows.trans hgrows')
      (summary.merge (.total (c.attempts source output land (found name) t).1))
    intro total t' hrun
    rw [List.foldlM_cons, run_bind] at hrun
    rcases hone : (visit summary name).run.run t with ⟨e | s, t''⟩ <;> rw [hone] at hrun
    · cases hrun
    obtain ⟨rfl, rfl⟩ := hfirst s t'' hone
    rw [List.flatMap_cons, attempts_append, Summary.total_append, ← Summary.merge_assoc]
    exact hothers total t' hrun

/-- A walk through a directory whose turn has come attempts the files that were there to be visited
before anything was written, unless some directory cannot be listed. -/
theorem attempts_convertWithin (h : c.Underway t₁ source output src out land)
    (hundisturbed : c.Undisturbed t₁ source src out land) {depth : Nat} {directory : List String}
    (hcourse : c.Course t₁ src out land done t) (hbefore : ∀ route ∈ done, route < directory)
    (hdirectory₁ : t₁.entry? (src ++ directory) = some .directory ∨ c.Ignores t₁ source src out land)
    (hdirectory : t.entry? (src ++ directory) = some .directory)
    (hshort : (source.down directory).text.utf8ByteSize < 4096)
    (hdepth : 4096 < depth + (source.down directory).text.utf8ByteSize) :
    c.Attempts source output land (c.visited t₁ source src depth directory) t {}
      (c.convertWithin output depth (source.down directory) directory) := by
  induction depth generalizing directory done t with
  | zero => omega
  | succ depth ih =>
    have ht := hcourse.grows.wellFormed
    have hthere : t.entry? (src ++ directory) ≠ none := by simp [hdirectory]
    have hnames := ht.isName hthere
    have hresolve := resolve_directory ht (h.opensSource.grows hcourse.grows) h.text hnames hdirectory
      hshort
    have hfound : c.visited t₁ source src (depth + 1) directory =
        (sortNames (t.namesIn (src ++ directory))).flatMap
          (c.visitedFor t₁ source src depth directory) := by
      refine (flatMap_sortNames h.wellFormed.nodup_namesIn ht.nodup_namesIn (fun name hname => ?_) _).symm
      rw [FileTree.mem_namesIn, Option.isSome_iff_ne_none] at hname ⊢
      exact (hcourse.grows.kind hname).1
    intro total t' hrun
    rw [convertWithin_succ, run_bind, run_list, FileTree.list_eq hresolve hdirectory] at hrun
    rcases hunlock : t.unlock (src ++ directory) with e | _ <;> rw [hunlock] at hrun
    · cases hrun
    rw [hfound]
    refine attempts_foldlM h (pairwise_sortNames ht.nodup_namesIn)
      (fun name hname done' t' hcourse' hbefore' hgrows summary => ?_) (fun name hname route hroute => ?_)
      hcourse (fun route hroute name _ => lt_of_lt_of_prefix (hbefore route hroute) (List.prefix_append _ _))
      (.refl ht) {} total t' hrun
    · rw [(perm_sortNames _).mem_iff, FileTree.mem_namesIn, List.append_assoc,
        Option.isSome_iff_ne_none] at hname
      have hdirectory' := hgrows.directory hdirectory
      have hsome := (hgrows.kind hname).1
      have hnames' := hcourse'.grows.wellFormed.isName hsome
      have hignores (hnone : t₁.entry? (src ++ (directory ++ [name])) = none) :=
        hcourse.ignores hundisturbed hbefore hdirectory₁ hnone hname
      have hbelow (hchild : t'.isDirectory (source.down (directory ++ [name])) = true) :
          c.Attempts source output land (c.visited t₁ source src depth (directory ++ [name])) t' {}
            (c.convertWithin output depth (source.down (directory ++ [name])) (directory ++ [name])) := by
        obtain ⟨hshort', hentry⟩ := (isDirectory_down hcourse'.grows.wellFormed
          (h.opensSource.grows hcourse'.grows) hnames' hdirectory').mp hchild
        have hsize := (source.down directory).size_join (hnames' name (by simp))
        rw [← Path.down_concat] at hsize
        refine ih hcourse' hbefore' ?_ hentry hshort' (by omega)
        by_cases hnone : t₁.entry? (src ++ (directory ++ [name])) = none
        · exact .inr (hignores hnone)
        · exact .inl ((hcourse'.grows.kind hnone).2.mp hentry)
      rw [visitedFor]
      split
      · rename_i hold
        rw [FileTree.mem_namesIn, List.append_assoc, Option.isSome_iff_ne_none] at hold
        exact attempts_visit_old h hcourse' hdirectory' hbelow hold summary
      · rename_i hnew
        rw [FileTree.mem_namesIn, List.append_assoc, Option.not_isSome_iff_eq_none] at hnew
        exact attempts_visit_new h hcourse' hdirectory' hbelow (hignores hnew) hnew hsome summary
    · have hvisited : route ∈ c.visited t₁ source src (depth + 1) directory :=
        hfound ▸ List.mem_flatMap.mpr ⟨name, hname, hroute⟩
      rw [visitedFor] at hroute
      split at hroute
      · rename_i hold
        rw [FileTree.mem_namesIn, List.append_assoc, Option.isSome_iff_ne_none] at hold
        have hthere₁ : t₁.entry? (src ++ directory) = some .directory :=
          h.wellFormed.directory_of_prefix hold (List.prefix_append _ _) (by simp)
        obtain ⟨rest, rfl⟩ := exists_of_mem_visitedAt (fun _ => exists_of_mem_visited) hroute
        exact ⟨((mem_visited h.wellFormed h.opensSource h.shortPaths hnames hthere₁ hshort hdepth).mp
          hvisited).1, List.prefix_append _ _⟩
      · cases hroute

/-- A walk through a whole directory attempts the files that are wanted, if it comes to its end. -/
theorem Underway.attempts (h : c.Underway t₁ source output src out land)
    (hundisturbed : c.Undisturbed t₁ source src out land) :
    (∀ route, route ∈ c.visited t₁ source src deepest [] ↔ c.Wanted t₁ src route) ∧
      c.Attempts source output land (c.visited t₁ source src deepest []) t₁ {}
        (c.convertWithin output deepest source []) := by
  obtain ⟨-, -, hshort⟩ := FileTree.checkPath_eq_ok.mp (h.opensSource.sound.resolve_left h.text)
  have hdirectory : t₁.entry? (src ++ []) = some .directory := by
    simpa using h.opensSource.directory
  have hdepth : 4096 < deepest + (source.down []).text.utf8ByteSize := by
    have : source.text.utf8ByteSize ≠ 0 := mt String.utf8ByteSize_eq_zero_iff.mp h.text
    rw [deepest, Path.down_nil]
    omega
  refine ⟨fun route => ?_, ?_⟩
  · rw [mem_visited h.wellFormed h.opensSource h.shortPaths (by simp) hdirectory hshort hdepth]
    refine and_iff_left_of_imp fun hwanted => ?_
    obtain ⟨name, rest, rfl⟩ := List.exists_cons_of_ne_nil (route_ne_nil_of_file h.opensSource hwanted.1)
    exact ⟨name, rest, rfl⟩
  · exact attempts_convertWithin h hundisturbed (.start h.wellFormed) nofun (.inl hdirectory) hdirectory
      hshort hdepth

/-! ## Files that keep their places -/

/-- A conversion that can begin: of a directory that can be walked through, into one that is there, is
the same or lies apart, where each file keeps its place. -/
structure Ready (c : Converter) (t : FileTree) (source output : Path) (src out : List String) : Prop where
  targets : ∀ route, c.Wanted t src route → c.target (source.down route) output route = .ok (output.down route)
  wellFormed : t.WellFormed
  text : source.text ≠ ""
  opensSource : t.Opens source src
  opensOutput : t.Opens output out
  apart : src = out ∨ ¬ src <+: out ∧ ¬ out <+: src
  shortPaths : c.ShortPaths t source src

namespace Ready

/-- What is written is not read, unless it is written where it was read. -/
theorem eq_of_append (h : c.Ready t₁ source output src out) {place : List String}
    (heq : src ++ route = out ++ place) : src = out ∧ route = place := by
  rcases h.apart with rfl | ⟨hsrc, hout⟩
  · exact ⟨rfl, List.append_cancel_left heq⟩
  · have hprefix : src <+: out ++ place := ⟨route, heq⟩
    exact absurd (List.prefix_or_prefix_of_prefix hprefix (List.prefix_append out place))
      (not_or.mpr ⟨hsrc, hout⟩)

variable (h : c.Ready t₁ source output src out)
include h

theorem route_ne_nil (hroute : (t₁.file? (src ++ route)).isSome = true) : route ≠ [] :=
  route_ne_nil_of_file h.opensSource hroute

theorem isName (hroute : (t₁.file? (src ++ route)).isSome = true) : ∀ n ∈ route, IsName n :=
  h.wellFormed.isName (FileTree.entry?_ne_none hroute)

/-- Above a file there are directories. -/
theorem directory_of_prefix (hroute : (t₁.file? (src ++ route)).isSome = true) {above : List String}
    (habove : above <+: route.dropLast) : t₁.entry? (src ++ above) = some .directory := by
  refine h.wellFormed.directory_of_prefix (FileTree.entry?_ne_none hroute)
    (habove.trans (List.dropLast_prefix route)) ?_
  rintro rfl
  have hlength := habove.length_le
  have hpos := List.length_pos_iff.mpr (h.route_ne_nil hroute)
  rw [List.length_dropLast] at hlength
  omega

end Ready

theorem target_eq (hkeep : c.keepPlaces = true) (hextension : c.outputExtension = none) (p : Path)
    (hne : route ≠ []) (hnames : ∀ n ∈ route, IsName n) :
    c.target p output route = .ok (output.down route) := by
  rw [target, if_pos hkeep, renamed, hextension, output.join_ofSegments hne hnames]

theorem Ready.underway (h : c.Ready t₁ source output src out) :
    c.Underway t₁ source output src out id where
  wellFormed := h.wellFormed
  text := h.text
  opensSource := h.opensSource
  opensOutput := h.opensOutput
  shortPaths := h.shortPaths
  targets := h.targets
  lands route hwanted := by
    have hnames := h.isName hwanted.1
    obtain ⟨names, name, rfl⟩ := (List.eq_nil_or_concat' route).resolve_left (h.route_ne_nil hwanted.1)
    exact ⟨names, name, rfl, fun n hn => hnames n (List.mem_append_left _ hn),
      (hnames name (by simp)).isSegment⟩

/-- A walk through a whole directory attempts the files that are wanted, where they keep their places,
if it comes to its end. -/
theorem attempts_directory (h : c.Ready t₁ source output src out) :
    (∀ route, route ∈ c.visited t₁ source src deepest [] ↔ c.Wanted t₁ src route) ∧
      c.Attempts source output id (c.visited t₁ source src deepest []) t₁ {}
        (c.convertWithin output deepest source []) := by
  have hahead : c.NeverAhead t₁ src out id :=
    .of_apart h.apart fun route _ => List.dropLast_prefix route
  exact h.underway.attempts (.inr hahead)

end Converter

end Downlevel
