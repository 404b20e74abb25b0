import Downlevel.File.System

/-!
# File trees

A file system as a value: what stands at each place, a place being the names on the way to it from
the root. The root is always a directory. A directory may be one that cannot be listed, and a file one
that cannot be read, for whatever reason.
-/

namespace Downlevel

/-- What can stand at a place. -/
inductive FileTree.Entry where
  | directory
  | file (bytes : ByteArray)

def FileTree.Entry.isDirectory : FileTree.Entry → Bool
  | directory => true
  | file _ => false

/-- A file tree and the place that relative paths start from. -/
structure FileTree where
  entries : List (List String × FileTree.Entry) := []
  here : List String := []
  /-- Why what stands at a place cannot be listed or read. -/
  faults : List (List String × OsError) := []

namespace FileTree

def entry? (t : FileTree) : List String → Option Entry
  | [] => some .directory
  | place => t.entries.lookup place

/-- Puts something at a place, over what stood there before. -/
def insert (t : FileTree) (place : List String) (e : Entry) : FileTree :=
  { t with entries := (place, e) :: t.entries.filter (·.1 ≠ place) }

/-- Fails unless a place is a directory. -/
def enter (t : FileTree) (place : List String) : Except OsError Unit :=
  match t.entry? place with
  | some .directory => .ok ()
  | some (.file _) => .error .notADirectory
  | none => .error .notFound

/-- Fails where something stands that cannot be listed or read. -/
def unlock (t : FileTree) (place : List String) : Except OsError Unit :=
  match t.faults.lookup place with
  | some e => .error e
  | none => .ok ()

/-- The place one segment leads to from a place, which must be a directory. A name has at most 255
bytes. -/
def step (t : FileTree) (place : List String) (segment : String) : Except OsError (List String) := do
  t.enter place
  if Path.isIdle segment then return place
  else if segment = ".." then return place.dropLast
  else if 255 < segment.utf8ByteSize then throw .nameTooLong
  else return place ++ [segment]

/-- The place that segments lead to, one after another. -/
def follow (t : FileTree) (place : List String) (segments : List String) :
    Except OsError (List String) :=
  segments.foldlM t.step place

/-- The place where a path starts. -/
def origin (t : FileTree) (p : Path) : List String :=
  if p.isAbsolute then [] else t.here

/-- Fails for texts that are no path: the empty one, one with a NUL, and one of 4096 bytes or
more. -/
def checkPath (p : Path) : Except OsError Unit :=
  if p.text.toList.contains (Char.ofNat 0) then .error .nulInName
  else if p.text = "" then .error .notFound
  else if 4096 ≤ p.text.utf8ByteSize then .error .nameTooLong
  else .ok ()

/-- The place a path leads to, whether or not something stands there. -/
def resolve (t : FileTree) (p : Path) : Except OsError (List String) := do
  checkPath p
  t.follow (t.origin p) p.segments

def isDirectory (t : FileTree) (p : Path) : Bool :=
  match t.resolve p with
  | .ok place => (t.entry? place).any Entry.isDirectory
  | .error _ => false

/-- The last name of a place that lies directly in a directory. -/
def childName? (directory place : List String) : Option String :=
  if place.dropLast = directory then place.getLast? else none

def list (t : FileTree) (p : Path) : Except OsError (List String) := do
  let place ← t.resolve p
  t.enter place
  t.unlock place
  return t.entries.filterMap fun (other, _) => childName? place other

def read (t : FileTree) (p : Path) : Except OsError ByteArray := do
  let place ← t.resolve p
  match t.entry? place with
  | some (.file bytes) =>
    t.unlock place
    return bytes
  | some .directory => throw .isADirectory
  | none => throw .notFound

/-- The place of a new entry at a path, in a directory; none if the path ends in no name. Slashes at
the end do not count. -/
def placeNew (t : FileTree) (p : Path) : Except OsError (Option (List String)) := do
  checkPath p
  let segments := (p.segments.reverse.dropWhile (· = "")).reverse
  let directory ← t.follow (t.origin p) segments.dropLast
  t.enter directory
  match segments.getLast? with
  | none | some "." | some ".." => return none
  | some name => return some (← t.step directory name)

/-- Writes a file, over what it held before. -/
def write (t : FileTree) (p : Path) (bytes : ByteArray) : Except OsError FileTree := do
  match ← t.placeNew p with
  | none => throw .isADirectory
  | some place =>
    if p.text.toList.getLast? = some '/' || (t.entry? place).any Entry.isDirectory then
      throw .isADirectory
    else return t.insert place (.file bytes)

/-- Makes a single directory. -/
def createDirectory (t : FileTree) (p : Path) : Except OsError FileTree := do
  match ← t.placeNew p with
  | none => throw .exists
  | some place =>
    if (t.entry? place).isSome then throw .exists else return t.insert place .directory

/-- Makes a directory unless it is there already. -/
def ensureDirectory (t : FileTree) (p : Path) : Except OsError Unit × FileTree :=
  match t.createDirectory p with
  | .ok t => (.ok (), t)
  | .error e => (if t.isDirectory p then .ok () else .error e, t)

/-- Makes a directory after those above it, of which there are at most `depth`. What was made before
a failure stays. -/
def createWithin (t : FileTree) : Nat → Path → Except OsError Unit × FileTree
  | 0, _ => (.error .nameTooLong, t)
  | depth + 1, p =>
    if p.text = "" then (.ok (), t)
    else match t.ensureDirectory p, p.parent? with
      | (.error .notFound, _), some parent =>
        match t.createWithin depth parent with
        | (.ok (), t) => t.ensureDirectory p
        | failed => failed
      | done, _ => done

/-- Makes a directory and those above it, as far as they are missing. -/
def createDirectories (t : FileTree) (p : Path) : Except OsError Unit × FileTree :=
  t.createWithin (p.segments.length + 1) p

instance : FileSystem (StateM FileTree) where
  isDirectory p := return (← get).isDirectory p
  list p := return (← get).list p
  read p := return (← get).read p
  write p bytes := fun t =>
    match t.write p bytes with
    | .ok t => (.ok (), t)
    | .error e => (.error e, t)
  createDirectories p := fun t => t.createDirectories p

/-- What lies below the place that relative paths start from: the names on the way, and what stands
there. -/
def contents (t : FileTree) : List (List String × Entry) :=
  t.entries.filterMap fun (place, e) =>
    if t.here.isPrefixOf place ∧ place ≠ t.here then some (place.drop t.here.length, e) else none

/-- A file put at a path, with the directories above it. -/
def withFile (t : FileTree) (p : Path) (bytes : ByteArray) : FileTree :=
  let t := (t.createDirectories (p.parent?.getD ⟨""⟩)).2
  match t.write p bytes with
  | .ok t => t
  | .error _ => t

/-- A file tree whose relative paths start from a new directory, with these directories and files in
it. -/
def ofFiles (directories : List Path) (files : List (Path × ByteArray)) : FileTree :=
  let home : FileTree := { entries := [(["work"], .directory)], here := ["work"] }
  let t := directories.foldl (fun t p => (t.createDirectories p).2) home
  files.foldl (fun t (p, bytes) => t.withFile p bytes) t

end FileTree

end Downlevel
