import Polyglot.Bounds
import Polyglot.OffsetMap

/-!
# Edits

An edit is the bytes that are parsed in place of a slice, with the map from them back to
the slice. There are three ways to make one: keep the slice, give bytes that stand place for
place for those of the slice, or apply a list of splices to it.
-/

set_option autoImplicit false

namespace Polyglot

/-- Puts `replacement` in the place of a span of the slice. -/
structure Splice where
  span : Span
  replacement : Bytes
deriving DecidableEq, Repr

/-- Why a list of splices cannot be applied. -/
inductive SpliceError where
  | unordered (start previousStop : Nat)
  | outOfBounds (span : Span) (length : Nat)
deriving DecidableEq, Repr

/-- The message for a list of splices that cannot be applied. -/
def SpliceError.message : SpliceError → String
  | .unordered start previousStop =>
    s!"splice at {start} overlaps or precedes the previous splice ending at {previousStop}"
  | .outOfBounds span length => s!"splice {span.text} lies outside the {length}-byte slice"

namespace Splice

/-- Cuts a span out. -/
def delete (span : Span) : Splice :=
  ⟨span, []⟩

/-- Puts a text in. -/
def insert (offset : Nat) (text : Bytes) : Splice :=
  ⟨⟨offset, offset⟩, text⟩

/-- Whether the splice changes nothing. -/
def isVoid (s : Splice) : Bool :=
  s.span.isEmpty && s.replacement.isEmpty

end Splice

/-- The bytes that are parsed and the map from them back to the slice. -/
structure Edit where
  bytes : Bytes
  map : OffsetMap
deriving DecidableEq, Repr

namespace Edit

/-- The slice as it is. -/
def unchanged (slice : Bytes) : Edit :=
  ⟨slice, OffsetMap.identity slice.length⟩

/-- Bytes that stand place for place for those of a slice. Bytes too many go over to the end
of the slice, bytes too few leave its tail without an image. -/
def positional (bytes : Bytes) (sliceLength : Nat) : Edit :=
  let len := bytes.length
  let shared := min len sliceLength
  let tail :=
    if shared < len then
      [Segment.replaced ⟨shared, len⟩ ⟨sliceLength, sliceLength⟩]
    else if shared < sliceLength then
      [Segment.replaced ⟨len, len⟩ ⟨shared, sliceLength⟩]
    else []
  ⟨bytes, OffsetMap.ofSegments (Segment.copied ⟨0, shared⟩ 0 :: tail)⟩

section Splicing

variable {m : Type → Type} [Monad m] (bounds : Bounds m)

/-- The bytes from `cursor` to `stop` of the slice, copied to offset `written`. -/
def copyBy (slice : Bytes) (cursor stop written : Nat) : m (Bytes × List Segment) :=
  if cursor < stop then do
    let kept ← slice.sliceBy bounds cursor stop
    return (kept, [Segment.copied ⟨written, written + (stop - cursor)⟩ cursor])
  else return ([], [])

/-- The replacement of a splice, put at offset `written`. -/
def replace (s : Splice) (written : Nat) : Bytes × List Segment :=
  if s.isVoid then ([], [])
  else
    (s.replacement, [Segment.replaced ⟨written, written + s.replacement.length⟩ s.span])

/-- What comes of the slice from `cursor` on when `written` bytes stand already. What is left behind
the last splice has to be there even where it is empty. -/
def spliceBy (slice : Bytes) : Nat → Nat → List Splice →
    m (Except SpliceError (Bytes × List Segment))
  | cursor, written, [] => do
    bounds slice.length ⟨cursor, slice.length⟩
    return .ok (← copyBy bounds slice cursor slice.length written)
  | cursor, written, s :: rest =>
    if !s.span.fits slice.length then return .error (.outOfBounds s.span slice.length)
    else if s.span.start < cursor then return .error (.unordered s.span.start cursor)
    else do
      let kept ← copyBy bounds slice cursor s.span.start written
      let put := replace s (written + kept.1.length)
      let spliced ← spliceBy slice s.span.stop (written + kept.1.length + put.1.length) rest
      return spliced.map fun more => (kept.1 ++ put.1 ++ more.1, kept.2 ++ put.2 ++ more.2)

/-- Applies splices that are in order and do not overlap. -/
def ofSplicesBy (slice : Bytes) (splices : List Splice) : m (Except SpliceError Edit) := do
  let spliced ← spliceBy bounds slice 0 0 splices
  return spliced.map fun out => ⟨out.1, OffsetMap.ofSegments out.2⟩

end Splicing

/-- The bytes from `cursor` to `stop` of the slice, copied to offset `written`. -/
def copy (slice : Bytes) (cursor stop written : Nat) : Bytes × List Segment :=
  Id.run (copyBy .trusting slice cursor stop written)

/-- What comes of the slice from `cursor` on when `written` bytes stand already. -/
def splice (slice : Bytes) (cursor written : Nat) (splices : List Splice) :
    Except SpliceError (Bytes × List Segment) :=
  Id.run (spliceBy .trusting slice cursor written splices)

/-- Applies splices that are in order and do not overlap. -/
def ofSplices (slice : Bytes) (splices : List Splice) : Except SpliceError Edit :=
  Id.run (ofSplicesBy .trusting slice splices)

section Equations

variable (slice : Bytes) (cursor written : Nat)

theorem copy_eq (stop : Nat) :
    copy slice cursor stop written =
      if cursor < stop then
        (slice.slice cursor stop, [Segment.copied ⟨written, written + (stop - cursor)⟩ cursor])
      else ([], []) := by
  unfold copy copyBy
  split
  · rfl
  · rfl

@[simp] theorem splice_nil :
    splice slice cursor written [] = .ok (copy slice cursor slice.length written) := rfl

theorem splice_cons_eq (s : Splice) (rest : List Splice) :
    splice slice cursor written (s :: rest) =
      if !s.span.fits slice.length then .error (.outOfBounds s.span slice.length)
      else if s.span.start < cursor then .error (.unordered s.span.start cursor)
      else
        let kept := copy slice cursor s.span.start written
        let put := replace s (written + kept.1.length)
        (splice slice s.span.stop (written + kept.1.length + put.1.length) rest).map fun more =>
          (kept.1 ++ put.1 ++ more.1, kept.2 ++ put.2 ++ more.2) := by
  unfold splice
  rw [spliceBy]
  split
  · rfl
  · split
    · rfl
    · rfl

theorem ofSplices_eq (splices : List Splice) :
    ofSplices slice splices = (splice slice 0 0 splices).map fun out =>
      ⟨out.1, OffsetMap.ofSegments out.2⟩ := rfl

end Equations

end Edit

end Polyglot
