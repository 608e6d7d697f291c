import Polyglot.Bytes
import Polyglot.Span

/-!
# Lines, points and locations

A point is a row and a column, both counted from zero, columns in bytes. The line index of a
buffer is the table of its line starts; it turns offsets into points and points into offsets.
A location is a span together with the points of its two ends, always both from one index, so
the two forms never disagree.
-/

set_option autoImplicit false

namespace Polyglot

/-- A row and a column, counted from zero. -/
structure Point where
  row : Nat
  column : Nat
deriving DecidableEq, Repr, Inhabited

namespace Point

/-- Not after: by row, then by column. -/
def notAfter (p q : Point) : Bool :=
  p.row < q.row || (p.row == q.row && p.column ≤ q.column)

/-- The point as people count: from one, `line:column`. -/
def text (p : Point) : String :=
  s!"{p.row + 1}:{p.column + 1}"

theorem notAfter_iff {p q : Point} :
    p.notAfter q = true ↔ p.row < q.row ∨ (p.row = q.row ∧ p.column ≤ q.column) := by
  simp [notAfter]

end Point

/-- A span of a buffer with the points of its ends. -/
structure Location where
  span : Span
  startPoint : Point
  stopPoint : Point
deriving DecidableEq, Repr, Inhabited

namespace Location

/-- The first offset. -/
def start (l : Location) : Nat :=
  l.span.start

/-- The offset behind the last one. -/
def stop (l : Location) : Nat :=
  l.span.stop

/-- Whether `inner` lies entirely inside. -/
def contains (l inner : Location) : Bool :=
  l.start ≤ inner.start && inner.stop ≤ l.stop

end Location

/-- The offsets at which the lines of a buffer start, and the length of the buffer. -/
structure LineIndex where
  starts : List Nat
  length : Nat
deriving DecidableEq, Repr

namespace LineIndex

/-- The offsets behind each newline, for bytes that begin at `offset`. -/
def startsAfter (offset : Nat) : Bytes → List Nat
  | [] => []
  | b :: rest =>
    if b == Bytes.newline then (offset + 1) :: startsAfter (offset + 1) rest
    else startsAfter (offset + 1) rest

/-- The line index of a buffer. The first line starts at zero. -/
def ofBytes (bs : Bytes) : LineIndex :=
  ⟨0 :: startsAfter 0 bs, bs.length⟩

/-- The number of lines, an empty last one included. -/
def lineCount (ix : LineIndex) : Nat :=
  ix.starts.length

/-- The point of an offset; offsets past the end count as the end. -/
def pointOf (ix : LineIndex) (offset : Nat) : Point :=
  let offset := min offset ix.length
  let reached := ix.starts.takeWhile (· ≤ offset)
  ⟨reached.length - 1, offset - reached.getLast?.getD 0⟩

/-- The offset of a point. A row past the last one is the end of the buffer, a column past
the end of its line is the newline there. -/
def offsetOf (ix : LineIndex) (p : Point) : Nat :=
  match ix.starts[p.row]? with
  | none => ix.length
  | some lineStart =>
    let lineStop := (ix.starts[p.row + 1]?.map (· - 1)).getD ix.length
    min (lineStart + p.column) lineStop

/-- The location of a span, moved into the buffer where it does not lie in it. -/
def locate (ix : LineIndex) (start stop : Nat) : Location :=
  let start := min start ix.length
  let stop := max start (min stop ix.length)
  ⟨⟨start, stop⟩, ix.pointOf start, ix.pointOf stop⟩

end LineIndex

end Polyglot
