import Mathlib.Data.List.Nodup
import Downlevel.Proofs.FileConversion

/-!
# The files of a directory

The files that a conversion of a directory visits (`Converter.visited`): they are the files below it
that the converter selects, each once, in the order of their routes. A directory whose path is too long
to be asked for is taken for a file, so the paths of directories that matter must be short enough
(`Converter.ShortPaths`).
-/

namespace Downlevel

namespace Converter

/-! ## Names in order -/

theorem perm_insertName (name : String) (names : List String) :
    (insertName name names).Perm (name :: names) := by
  induction names with
  | nil => exact .refl _
  | cons other names ih =>
    rw [insertName]
    split
    · exact (ih.cons other).trans (.swap name other names)
    · exact .refl _

theorem perm_sortNames (names : List String) : (sortNames names).Perm names := by
  induction names with
  | nil => exact .refl _
  | cons name names ih => exact (perm_insertName name _).trans (ih.cons name)

theorem pairwise_insertName {name : String} {names : List String} (h : names.Pairwise (· < ·))
    (hname : name ∉ names) : (insertName name names).Pairwise (· < ·) := by
  induction names with
  | nil => simp [insertName]
  | cons other names ih =>
    rw [List.pairwise_cons] at h
    rw [List.mem_cons, not_or] at hname
    rw [insertName]
    split
    · rename_i hlt
      refine List.pairwise_cons.mpr ⟨fun x hx => ?_, ih h.2 hname.2⟩
      rcases List.mem_cons.mp ((perm_insertName name names).subset hx) with rfl | hx
      · exact hlt
      · exact h.1 x hx
    · rename_i hlt
      have hlt : name < other := by
        rcases String.le_total name other with hle | hle
        · by_contra hge
          exact hname.1 (String.le_antisymm hle (String.not_lt.mp hge))
        · by_contra
          exact hname.1 (String.le_antisymm (String.not_lt.mp hlt) hle)
      refine List.pairwise_cons.mpr ⟨fun x hx => ?_, List.pairwise_cons.mpr h⟩
      rcases List.mem_cons.mp hx with rfl | hx
      · exact hlt
      · exact String.lt_trans hlt (h.1 x hx)

theorem pairwise_sortNames {names : List String} (h : names.Nodup) :
    (sortNames names).Pairwise (· < ·) := by
  induction names with
  | nil => exact .nil
  | cons name names ih =>
    rw [List.nodup_cons] at h
    exact pairwise_insertName (ih h.2) fun hmem => h.1 ((perm_sortNames names).subset hmem)

end Converter

namespace FileTree

variable {t : FileTree} {place : List String} {name : String}

/-- The names in a directory. -/
def namesIn (t : FileTree) (place : List String) : List String :=
  t.entries.filterMap fun (other, _) => childName? place other

theorem childName?_eq_some {other : List String} :
    childName? place other = some name ↔ other = place ++ [name] := by
  rw [childName?]
  constructor
  · intro h
    split at h
    · rename_i hplace
      obtain ⟨front, rfl⟩ := List.getLast?_eq_some_iff.mp h
      rw [List.dropLast_concat] at hplace
      rw [hplace]
    · cases h
  · rintro rfl
    rw [List.dropLast_concat, if_pos rfl, List.getLast?_concat]

theorem mem_namesIn : name ∈ t.namesIn place ↔ (t.entry? (place ++ [name])).isSome = true := by
  rw [← mem_keys (by simp), namesIn, List.mem_filterMap, List.mem_map]
  simp only [childName?_eq_some]

theorem WellFormed.nodup_namesIn (ht : t.WellFormed) : (t.namesIn place).Nodup := by
  have hkeys : t.namesIn place = (t.entries.map Prod.fst).filterMap (childName? place) := by
    rw [List.filterMap_map]
    rfl
  rw [hkeys]
  refine List.Nodup.filterMap (fun other other' name h h' => ?_) ht.keys
  rw [childName?_eq_some.mp h, childName?_eq_some.mp h']

theorem list_eq {p : Path} (h : t.resolve p = .ok place) (hdirectory : t.entry? place = some .directory) :
    t.list p = (t.unlock place).map fun _ => t.namesIn place := by
  rw [list, h]
  show (t.enter place).bind _ = _
  rw [enter_of_directory hdirectory]
  rfl

end FileTree

namespace Converter

variable {c : Converter} {t : FileTree} {source : Path} {src route names : List String} {name : String}

/-- Only the last name of a path decides whether a file is selected. -/
theorem selects_join (c : Converter) (p : Path) (hname : IsName name) :
    c.selects (p.join ⟨name⟩) = c.selects (Path.join ⟨""⟩ ⟨name⟩) := by
  rw [selects, selects, Path.extension?, Path.extension?, p.fileName?_join hname,
    Path.fileName?_join _ hname]

theorem selects_down (c : Converter) (p : Path) (hne : names ≠ []) (hnames : ∀ n ∈ names, IsName n) :
    c.selects (p.down names) = c.selects (.ofSegments names) := by
  rw [Path.ofSegments_eq_down hne hnames]
  obtain ⟨names, name, rfl⟩ := (List.eq_nil_or_concat' names).resolve_left hne
  have hname : IsName name := hnames name (by simp)
  rw [Path.down_concat, Path.down_concat, c.selects_join _ hname, ← c.selects_join _ hname]

/-- No directory below `src`, which `source` leads to, has a path so long that a walk would miss a file
in it, or take it for a file. -/
structure ShortPaths (c : Converter) (t : FileTree) (source : Path) (src : List String) : Prop where
  /-- The directories of the files that are selected have short paths. -/
  files : ∀ names name, (t.file? (src ++ (names ++ [name]))).isSome →
    c.selects (.ofSegments (names ++ [name])) → names ≠ [] →
    (source.join (.ofSegments names)).text.utf8ByteSize < 4096
  /-- So have the directories that would be selected if they were files. -/
  directories : ∀ route, route ≠ [] → t.entry? (src ++ route) = some .directory →
    c.selects (.ofSegments route) → (source.join (.ofSegments route)).text.utf8ByteSize < 4096

theorem ShortPaths.of_entries (ht : t.WellFormed) (h : ∀ place ∈ t.entries.map Prod.fst,
    (source.join (.ofSegments (place.drop src.length))).text.utf8ByteSize < 4096) :
    c.ShortPaths t source src := by
  have hshort {names : List String} (hne : names ≠ []) (hnames : (t.entry? (src ++ names)).isSome = true) :
      (source.join (.ofSegments names)).text.utf8ByteSize < 4096 := by
    simpa using h (src ++ names) ((FileTree.mem_keys (by simp [hne])).mpr hnames)
  refine ⟨fun names name hfile _ hne => hshort hne ?_, fun route hne hroute _ => hshort hne ?_⟩
  · rw [ht.directory_of_prefix (FileTree.entry?_ne_none hfile) (List.prefix_append _ _) (by simp)]
    rfl
  · rw [hroute]
    rfl

/-- What a walk visits at the end of a route, and below it if that is a directory. -/
def visitedAt (c : Converter) (t : FileTree) (source : Path) (route : List String)
    (below : List (List String)) : List (List String) :=
  if t.isDirectory (source.down route) then below
  else if c.selects (source.down route) then [route]
  else []

/-- The routes of the files that a walk visits below a route. -/
def visited (c : Converter) (t : FileTree) (source : Path) (src : List String) :
    Nat → List String → List (List String)
  | 0, _ => []
  | depth + 1, route =>
    (sortNames (t.namesIn (src ++ route))).flatMap fun name =>
      c.visitedAt t source (route ++ [name]) (c.visited t source src depth (route ++ [name]))

/-- The files that are to be visited. -/
def Wanted (c : Converter) (t : FileTree) (src route : List String) : Prop :=
  (t.file? (src ++ route)).isSome = true ∧ c.selects (.ofSegments route) = true

theorem isDirectory_down (ht : t.WellFormed) (h : t.Opens source src)
    (hnames : ∀ n ∈ names ++ [name], IsName n) (hdirectory : t.entry? (src ++ names) = some .directory) :
    t.isDirectory (source.down (names ++ [name])) = true ↔
      (source.down (names ++ [name])).text.utf8ByteSize < 4096 ∧
        t.entry? (src ++ (names ++ [name])) = some .directory := by
  rw [FileTree.isDirectory_eq_true, FileTree.resolve_down ht h hnames,
    FileTree.passage_of_directory hdirectory]
  by_cases hlong : 4096 ≤ (source.down (names ++ [name])).text.utf8ByteSize
  · rw [if_pos hlong]
    exact ⟨nofun, fun ⟨hshort, _⟩ => by omega⟩
  · rw [if_neg hlong]
    refine ⟨?_, fun ⟨_, hentry⟩ => ⟨_, rfl, hentry⟩⟩
    rintro ⟨place, hplace, hentry⟩
    cases hplace
    exact ⟨by omega, hentry⟩

theorem exists_of_mem_visitedAt {below : List (List String)} {x : List String}
    (hbelow : ∀ x ∈ below, ∃ rest, x = route ++ rest) (h : x ∈ c.visitedAt t source route below) :
    ∃ rest, x = route ++ rest := by
  rw [visitedAt] at h
  split at h
  · exact hbelow x h
  · split at h
    · exact ⟨[], by simpa using h⟩
    · simp at h

theorem exists_of_mem_visited {depth : Nat} {x : List String}
    (h : x ∈ c.visited t source src depth route) : ∃ rest, x = route ++ rest := by
  induction depth generalizing route x with
  | zero => simp [visited] at h
  | succ depth ih =>
    rw [visited, List.mem_flatMap] at h
    obtain ⟨name, -, h⟩ := h
    obtain ⟨rest, rfl⟩ := exists_of_mem_visitedAt (fun _ => ih) h
    exact ⟨name :: rest, by simp⟩

/-- Files are visited in the order of their routes. -/
theorem pairwise_visited (ht : t.WellFormed) (depth : Nat) (route : List String) :
    (c.visited t source src depth route).Pairwise (· < ·) := by
  induction depth generalizing route with
  | zero => exact .nil
  | succ depth ih =>
    rw [visited, List.pairwise_flatMap]
    constructor
    · intro name _
      rw [visitedAt]
      split
      · exact ih _
      · split <;> simp
    · refine (pairwise_sortNames ht.nodup_namesIn).imp fun {name name'} hlt x hx y hy => ?_
      obtain ⟨rest, rfl⟩ := exists_of_mem_visitedAt (fun _ => exists_of_mem_visited) hx
      obtain ⟨rest', rfl⟩ := exists_of_mem_visitedAt (fun _ => exists_of_mem_visited) hy
      rw [List.append_assoc, List.append_assoc]
      exact List.append_left_lt (List.cons_lt_cons_iff.mpr (.inl hlt))

theorem nodup_visited (ht : t.WellFormed) (depth : Nat) (route : List String) :
    (c.visited t source src depth route).Nodup := by
  refine (pairwise_visited ht depth route).imp fun {x y} hlt heq => ?_
  subst heq
  exact List.lt_irrefl x hlt

section Wanted

variable (ht : t.WellFormed) (h : t.Opens source src) (hshortPaths : c.ShortPaths t source src) {depth : Nat}
  {x : List String}
include ht h hshortPaths

/-- Of a route that leads to a file that is selected, or to such a directory, only the file is visited. -/
theorem wanted_of_selects (hnames : ∀ n ∈ names ++ [name], IsName n)
    (hdirectory : t.entry? (src ++ names) = some .directory)
    (hname : (t.entry? (src ++ (names ++ [name]))).isSome = true)
    (hselects : c.selects (source.down (names ++ [name])) = true)
    (hfile : ¬ t.isDirectory (source.down (names ++ [name])) = true) :
    c.Wanted t src (names ++ [name]) := by
  rw [c.selects_down source (by simp) hnames] at hselects
  refine ⟨?_, hselects⟩
  rcases hentry : t.entry? (src ++ (names ++ [name])) with _ | _ | bytes
  · simp [hentry] at hname
  · -- a directory with a short path is not taken for a file
    have hshort := hshortPaths.directories _ (by simp) hentry hselects
    rw [source.join_ofSegments (by simp) hnames] at hshort
    exact absurd ((isDirectory_down ht h hnames hdirectory).mpr ⟨hshort, hentry⟩) hfile
  · simp [FileTree.file?_eq_some.mpr hentry]

omit ht h in
/-- On the way to a file that is wanted there are only directories with short paths. -/
theorem short_of_wanted {above : List String} (hwanted : c.Wanted t src x)
    (hnames : ∀ n ∈ x, IsName n) (habove : above <+: x) (hne : above ≠ x) (hnil : above ≠ []) :
    (source.down above).text.utf8ByteSize < 4096 := by
  obtain ⟨rest, rfl⟩ := habove
  obtain ⟨rest, last, rfl⟩ := (List.eq_nil_or_concat' rest).resolve_left fun hrest => hne (by simp [hrest])
  rw [← List.append_assoc] at hwanted hnames
  rw [List.forall_mem_append] at hnames
  have hfront := hshortPaths.files _ _ hwanted.1 hwanted.2 (by simp [hnil])
  rw [source.join_ofSegments (by simp [hnil]) hnames.1] at hfront
  exact Nat.lt_of_le_of_lt (source.size_down_le hnames.1 (List.prefix_append above rest)) hfront

/-- The files that are visited are those that are wanted. -/
theorem mem_visited (hnames : ∀ n ∈ route, IsName n) (hroute : t.entry? (src ++ route) = some .directory)
    (hshort : (source.down route).text.utf8ByteSize < 4096)
    (hdepth : 4096 < depth + (source.down route).text.utf8ByteSize) :
    x ∈ c.visited t source src depth route ↔ c.Wanted t src x ∧ ∃ name rest, x = route ++ name :: rest := by
  induction depth generalizing route with
  | zero => omega
  | succ depth ih =>
    rw [visited, List.mem_flatMap]
    -- what holds of a name in the directory
    have hchild {name : String} (hname : (t.entry? (src ++ (route ++ [name]))).isSome = true) :
        (∀ n ∈ route ++ [name], IsName n) ∧
          4096 < depth + (source.down (route ++ [name])).text.utf8ByteSize := by
      have hnames := ht.isName (Option.isSome_iff_ne_none.mp hname)
      have hsize := (source.down route).size_join (hnames name (by simp))
      rw [← Path.down_concat] at hsize
      exact ⟨hnames, by omega⟩
    constructor
    · rintro ⟨name, hname, hx⟩
      rw [(perm_sortNames _).mem_iff, FileTree.mem_namesIn, List.append_assoc] at hname
      obtain ⟨hnames', hdepth'⟩ := hchild hname
      rw [visitedAt] at hx
      split at hx
      · rename_i hdirectory
        obtain ⟨hshort', hentry⟩ := (isDirectory_down ht h hnames' hroute).mp hdirectory
        obtain ⟨hwanted, name', rest, rfl⟩ := (ih hnames' hentry hshort' hdepth').mp hx
        exact ⟨hwanted, name, name' :: rest, by simp⟩
      · rename_i hfile
        split at hx
        · rename_i hselects
          rw [List.mem_singleton] at hx
          subst hx
          exact ⟨wanted_of_selects ht h hshortPaths hnames' hroute hname hselects hfile, name, [], rfl⟩
        · simp at hx
    · rintro ⟨hwanted, name, rest, rfl⟩
      obtain ⟨bytes, hbytes⟩ := Option.isSome_iff_exists.mp hwanted.1
      have hentry := FileTree.file?_eq_some.mp hbytes
      have hnames' := ht.isName (by rw [hentry]; simp)
      have hbelow : route ++ [name] <+: route ++ name :: rest := ⟨rest, by simp⟩
      refine ⟨name, ?_⟩
      rw [(perm_sortNames _).mem_iff, FileTree.mem_namesIn, List.append_assoc, visitedAt]
      rcases rest with _ | ⟨name', rest⟩
      · have hfile : ¬ t.isDirectory (source.down (route ++ [name])) = true := by
          rw [isDirectory_down ht h hnames' hroute, hentry]
          simp
        have hselects : c.selects (source.down (route ++ [name])) = true := by
          rw [c.selects_down source (by simp) hnames']
          exact hwanted.2
        rw [if_neg hfile, if_pos hselects, hentry]
        exact ⟨rfl, List.mem_singleton_self _⟩
      · have hdirectory : t.entry? (src ++ (route ++ [name])) = some .directory :=
          ht.directory_of_prefix (by rw [hentry]; simp) hbelow (by simp)
        obtain ⟨hnames'', hdepth'⟩ := hchild (by rw [hdirectory]; rfl)
        have hshort' := short_of_wanted hshortPaths hwanted hnames' hbelow (by simp) (by simp)
        rw [if_pos ((isDirectory_down ht h hnames'' hroute).mpr ⟨hshort', hdirectory⟩), hdirectory,
          ih hnames'' hdirectory hshort' hdepth']
        exact ⟨rfl, hwanted, name', rest, by simp⟩

end Wanted

end Converter

end Downlevel
