/-!
# Places in a source text

A place is named by a byte offset, or in full by offset, line and column. `LineIndex` turns an
offset into a full position; only a line feed ends a line, and columns count characters.
-/

namespace Downlevel

/-- The number of bytes a run of characters takes in UTF-8. -/
def byteLength : List Char → Nat
  | [] => 0
  | c :: cs => c.utf8Size + byteLength cs

/-- The leading characters of a text that take up `n` bytes. -/
def takeBytes : Nat → List Char → List Char
  | 0, _ => []
  | _, [] => []
  | n, c :: cs => c :: takeBytes (n - c.utf8Size) cs

/-- A point in a source text: byte offset, line counted from one, column counted from zero. -/
structure Position where
  offset : Nat := 0
  line : Nat := 0
  column : Nat := 0
deriving DecidableEq, Inhabited

/-- A stretch of source text between two positions. -/
structure Span where
  start : Position := {}
  stop : Position := {}
deriving DecidableEq, Inhabited

/-- A stretch of source text between two byte offsets. -/
structure Range where
  start : Nat := 0
  stop : Nat := 0
deriving DecidableEq, Inhabited

/-- From the start of one range to the end of another. -/
def Range.to (r s : Range) : Range :=
  ⟨r.start, s.stop⟩

/-- One line of a text, its line feed included, with the byte offset at which it starts. -/
structure Line where
  start : Nat
  chars : List Char
deriving DecidableEq, Inhabited

/-- The lines of a text that starts at byte `start`. There is always a last line, empty when the
text ends in a line feed. -/
def Line.split (start : Nat) : List Char → List Line
  | [] => [⟨start, []⟩]
  | c :: cs =>
    let later := Line.split (start + c.utf8Size) cs
    if c = '\n' then ⟨start, [c]⟩ :: later
    else match later with
      | [] => [⟨start, [c]⟩]
      | l :: ls => ⟨start, c :: l.chars⟩ :: ls

/-- The lines of a source text, in order. -/
structure LineIndex where
  lines : Array Line

namespace LineIndex

def ofText (source : List Char) : LineIndex :=
  ⟨(Line.split 0 source).toArray⟩

def line (index : LineIndex) (n : Nat) : Line :=
  index.lines.getD n default

/-- Halves the lines from `lo` to before `hi` until it hits one that starts at `offset`. If there is
none, the result is the first line that starts behind `offset`, as an error. -/
def search (index : LineIndex) (offset lo hi : Nat) : Except Nat Nat :=
  if lo < hi then
    let mid := lo + (hi - lo) / 2
    let start := (index.line mid).start
    if start = offset then .ok mid
    else if start < offset then index.search offset (mid + 1) hi
    else index.search offset lo mid
  else .error lo
termination_by hi - lo

/-- The line, counted from zero, that `offset` lies on: the last one that starts no later. -/
def lineAt (index : LineIndex) (offset : Nat) : Nat :=
  match index.search offset 0 index.lines.size with
  | .ok line => line
  | .error next => next - 1

/-- Line and column of a byte offset. -/
def position (index : LineIndex) (offset : Nat) : Position :=
  let n := index.lineAt offset
  let line := index.line n
  ⟨offset, n + 1, (takeBytes (offset - line.start) line.chars).length⟩

/-- Both ends of a range, by line and column. -/
def span (index : LineIndex) (range : Range) : Span :=
  ⟨index.position range.start, index.position range.stop⟩

end LineIndex

end Downlevel
