import Polyglot.Span

/-!
# Offset maps

The bytes that are parsed for a region need not be the bytes of the region: something may
have been cut out, put in or replaced. An offset map leads every offset of the parsed bytes
back to the buffer they came from. It is a list of segments that tile the parsed bytes. In a
linear segment the bytes were copied, and offsets go over one to one; any other segment
stands for a replacement, and all of it goes over to all of its target.

`mapRange` takes a start to the start of what it came from and an end to the end of that, so
a mapped range covers the text it stands for. `andThen` composes two maps.
-/

set_option autoImplicit false

namespace Polyglot

/-- Some parsed bytes and what they came from. Either side may be empty. -/
structure Segment where
  parsed : Span
  target : Span
  linear : Bool
deriving DecidableEq, Repr, Inhabited

namespace Segment

/-- Bytes that were copied from `targetStart` on. -/
def copied (parsed : Span) (targetStart : Nat) : Segment :=
  ⟨parsed, ⟨targetStart, targetStart + parsed.length⟩, true⟩

/-- Bytes that replace the target. -/
def replaced (parsed target : Span) : Segment :=
  ⟨parsed, target, false⟩

end Segment

/-- The way back from parsed bytes to a buffer. -/
structure OffsetMap where
  segments : List Segment
deriving DecidableEq, Repr

namespace OffsetMap

/-- The map of bytes that are the `len` bytes from `base` on. -/
def shifted (len base : Nat) : OffsetMap :=
  ⟨[Segment.copied ⟨0, len⟩ base]⟩

/-- The map of a whole buffer that is parsed as it is. -/
def identity (len : Nat) : OffsetMap :=
  shifted len 0

/-- The map with the given segments; without any it is the map of the empty buffer. -/
def ofSegments (segments : List Segment) : OffsetMap :=
  if segments.isEmpty then identity 0 else ⟨segments⟩

/-- The number of parsed bytes. -/
def parsedLength (m : OffsetMap) : Nat :=
  (m.segments.getLast?.map (·.parsed.stop)).getD 0

/-- From where the first target starts to where the last one ends. -/
def targetSpan (m : OffsetMap) : Span :=
  let start := (m.segments.head?.map (·.target.start)).getD 0
  let stop := (m.segments.getLast?.map (·.target.stop)).getD start
  ⟨start, max start stop⟩

/-- Whether every byte was copied. -/
def isLinear (m : OffsetMap) : Bool :=
  m.segments.all (·.linear)

/-- The image of an offset at which a range starts. -/
def mapStart (m : OffsetMap) (offset : Nat) : Nat :=
  match m.segments.find? fun s => offset < s.parsed.stop with
  | some s =>
    if s.linear then s.target.start + (offset - s.parsed.start) else s.target.start
  | none => m.targetSpan.stop

/-- The image of an offset at which a range ends. -/
def mapEnd (m : OffsetMap) (offset : Nat) : Nat :=
  match (m.segments.takeWhile fun s => s.parsed.start < offset).getLast? with
  | some s =>
    if s.linear then s.target.start + min (offset - s.parsed.start) s.parsed.length
    else s.target.stop
  | none => m.targetSpan.start

/-- The image of a range. The start never passes the mapped end, so an empty range on a
deletion stays before it; where nothing was parsed, every range is the whole target. -/
def mapRange (m : OffsetMap) (start stop : Nat) : Span :=
  if m.parsedLength = 0 then m.targetSpan
  else
    let mappedStop := m.mapEnd stop
    ⟨min (m.mapStart start) mappedStop, mappedStop⟩

/-- The map into a buffer that holds the present one from `base` on. -/
def shiftTargets (m : OffsetMap) (base : Nat) : OffsetMap :=
  ⟨m.segments.map fun s => { s with target := s.target.shift base }⟩

/-- The part of a linear segment that comes from the bytes of one segment further out. A
deletion counts only strictly inside the segment. -/
def sharedPart (s outer : Segment) : List Segment :=
  if outer.parsed.isEmpty then
    if s.target.start < outer.parsed.start ∧ outer.parsed.start < s.target.stop then
      let place := s.parsed.start + (outer.parsed.start - s.target.start)
      [Segment.replaced ⟨place, place⟩ outer.target]
    else []
  else
    let lo := max outer.parsed.start s.target.start
    let hi := min outer.parsed.stop s.target.stop
    if hi ≤ lo then []
    else
      let parsed : Span :=
        ⟨s.parsed.start + (lo - s.target.start), s.parsed.start + (hi - s.target.start)⟩
      if outer.linear then
        [Segment.copied parsed (outer.target.start + (lo - outer.parsed.start))]
      else [Segment.replaced parsed outer.target]

/-- A segment led on through a map further out. -/
def through (s : Segment) (outer : OffsetMap) : List Segment :=
  if !s.linear || s.target.isEmpty then
    [Segment.replaced s.parsed (outer.mapRange s.target.start s.target.stop)]
  else outer.segments.flatMap (sharedPart s)

/-- The map that goes through `inner` and on through `outer`. -/
def andThen (inner outer : OffsetMap) : OffsetMap :=
  ofSegments (inner.segments.flatMap fun s => through s outer)

end OffsetMap

end Polyglot
