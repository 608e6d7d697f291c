import Polyglot.Chain.Blanking
import Polyglot.Chain.Spec

/-!
# The editors at hand

Legacy comment markers around a script are cut out, a list of declarations is wrapped into a
rule, and delimited regions of template code are blanked.
-/

set_option autoImplicit false

namespace Polyglot.Editor

/-- Opens a legacy wrapper. -/
def wrapperOpening : Bytes :=
  Bytes.ofString "<!--"

/-- Closes a legacy wrapper. -/
def wrapperClosing : Bytes :=
  Bytes.ofString "-->"

section Bounded

variable {m : Type → Type} [Monad m] (bounds : Bounds m)

/-- The opening marker behind the blanks at the front, if it is there. -/
def leadingMarkerBy (slice : Bytes) : m (Option Span) := do
  let lead := slice.leadingBlanks
  let behind ← slice.sliceBy bounds lead slice.length
  return if wrapperOpening.isPrefixOf behind then some ⟨lead, lead + 4⟩ else none

/-- The closing marker before the blanks at the back, if it is there and does not begin
before `free`. -/
def trailingMarkerBy (slice : Bytes) (free : Nat) : m (Option Span) := do
  let stop := slice.length - slice.trailingBlanks
  if free + 3 ≤ stop then
    let before ← slice.sliceBy bounds 0 stop
    return if wrapperClosing.isSuffixOf before then some ⟨stop - 3, stop⟩ else none
  else return none

/-- The splices that take the markers out. -/
def wrapperSplicesBy (slice : Bytes) : m (List Splice) := do
  let opening ← leadingMarkerBy bounds slice
  let closing ← trailingMarkerBy bounds slice ((opening.map (·.stop)).getD 0)
  return (opening.toList ++ closing.toList).map Splice.delete

/-- Takes the markers of a legacy comment out. -/
def stripBy (slice : Bytes) : m (Except EditFailure Edit) := do
  let edit ← Edit.ofSplicesBy bounds slice (← wrapperSplicesBy bounds slice)
  return edit.mapError .splice

/-- Puts fixed texts before and behind the slice. -/
def wrapBy (before behind slice : Bytes) : m (Except EditFailure Edit) := do
  let edit ← Edit.ofSplicesBy bounds slice
    [Splice.insert 0 before, Splice.insert slice.length behind]
  return edit.mapError .splice

/-- Blanks every delimited region, so offsets and lines stay where they are. -/
def blankBy (opening closing slice : Bytes) : m (Except EditFailure Edit) :=
  if opening.isEmpty then
    return .error (.refused "blank-delimited needs a non-empty open marker")
  else do
    let buffer ← Blanking.runBy bounds opening closing (Blanking.ofSlice slice)
    return .ok (Edit.positional buffer.toList slice.length)

end Bounded

/-- Takes the markers of a legacy comment out that wrap a script or a style sheet. -/
def stripCommentWrapper : Editor :=
  ⟨"strip-comment-wrapper", fun slice _ => Id.run (stripBy .trusting slice)⟩

/-- Puts fixed texts before and behind the slice. -/
def wrap (before behind : Bytes) : Editor :=
  ⟨"wrap", fun slice _ => Id.run (wrapBy .trusting before behind slice)⟩

/-- Blanks every delimited region, so offsets and lines stay where they are. -/
def blankDelimited (opening closing : Bytes) : Editor :=
  ⟨"blank-delimited", fun slice _ => Id.run (blankBy .trusting opening closing slice)⟩

/-- The opening marker behind the blanks at the front, if it is there. -/
def leadingMarker? (slice : Bytes) : Option Span :=
  Id.run (leadingMarkerBy .trusting slice)

/-- The closing marker before the blanks at the back, if it is there and does not begin
before `free`. -/
def trailingMarker? (slice : Bytes) (free : Nat) : Option Span :=
  Id.run (trailingMarkerBy .trusting slice free)

/-- The splices that take the markers out. -/
def wrapperSplices (slice : Bytes) : List Splice :=
  Id.run (wrapperSplicesBy .trusting slice)

section Equations

variable (slice : Bytes)

theorem leadingMarker?_eq :
    leadingMarker? slice =
      if wrapperOpening.isPrefixOf (slice.drop slice.leadingBlanks) then
        some ⟨slice.leadingBlanks, slice.leadingBlanks + 4⟩
      else none := by
  have hbehind : slice.slice slice.leadingBlanks slice.length = slice.drop slice.leadingBlanks := by
    rw [Bytes.slice, List.take_length]
  rw [← hbehind]
  rfl

theorem trailingMarker?_eq (free : Nat) :
    trailingMarker? slice free =
      let stop := slice.length - slice.trailingBlanks
      if free + 3 ≤ stop ∧ wrapperClosing.isSuffixOf (slice.take stop) then some ⟨stop - 3, stop⟩
      else none := by
  unfold trailingMarker? trailingMarkerBy
  simp only
  split
  · next hfree =>
    simp only [hfree, true_and]
    rfl
  · next hfree =>
    simp only [hfree, false_and]
    rfl

theorem wrapperSplices_eq :
    wrapperSplices slice =
      let opening := leadingMarker? slice
      let closing := trailingMarker? slice ((opening.map (·.stop)).getD 0)
      (opening.toList ++ closing.toList).map Splice.delete := rfl

theorem edit_stripCommentWrapper (parent : SyntaxTree) :
    stripCommentWrapper.edit slice parent =
      (Edit.ofSplices slice (wrapperSplices slice)).mapError .splice := rfl

theorem edit_blankDelimited (opening closing : Bytes) (parent : SyntaxTree) :
    (blankDelimited opening closing).edit slice parent =
      if opening.isEmpty then .error (.refused "blank-delimited needs a non-empty open marker")
      else
        .ok (Edit.positional ((Blanking.ofSlice slice).run opening closing).toList
          slice.length) := by
  simp only [blankDelimited, blankBy]
  split
  · rfl
  · rfl

end Equations

end Polyglot.Editor
