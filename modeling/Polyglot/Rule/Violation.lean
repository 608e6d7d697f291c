import Polyglot.Log
import Polyglot.Query.Basic

/-!
# Violations

A rule records what it finds wrong. A violation is recorded by its title and gets a place in
the source afterwards, through the handle of its entry; the captures of a query are recorded
with their places at once. Entries are never removed or moved, so a handle stays good.
-/

set_option autoImplicit false

namespace Polyglot

/-- Something that a rule found wrong, and where. -/
structure Violation where
  title : String
  location : Option Location
deriving DecidableEq, Repr

/-- The entry of a recorded violation. -/
structure Handle where
  index : Nat
deriving DecidableEq, Repr

/-- What a rule recorded on one source, oldest first. -/
structure Recorder where
  source : Source
  violations : List Violation

namespace Recorder

/-- Before anything is recorded. -/
def empty (source : Source) : Recorder :=
  ⟨source, []⟩

/-- The number of entries. -/
def size (r : Recorder) : Nat :=
  r.violations.length

/-- A rule fails when it recorded something. -/
def isFailed (r : Recorder) : Bool :=
  !r.violations.isEmpty

/-- Records a violation without a place. -/
def record (r : Recorder) (title : String) : Handle × Recorder :=
  (⟨r.size⟩, { r with violations := r.violations ++ [⟨title, none⟩] })

/-- The violations of some matches: one for each capture, at the captured node. -/
def ofMatches (title : String) (matched : List QueryMatch) : List Violation :=
  matched.flatMap fun m => m.captures.map fun c => ⟨title, some c.node.location⟩

/-- Records the violations of some matches, and tells how many there are. -/
def recordMatches (r : Recorder) (title : String) (matched : List QueryMatch) : Nat × Recorder :=
  let found := ofMatches title matched
  (found.length, { r with violations := r.violations ++ found })

/-- Puts the violation of a handle at the range between two offsets, given in either order
and moved into the source. -/
def setRange (r : Recorder) (h : Handle) (a b : Nat) : Recorder :=
  let place := r.source.locate (min a b) (max a b)
  { r with violations := r.violations.modify h.index fun v => { v with location := some place } }

/-- Puts the violation of a handle at a location that is known already. Its offsets count. -/
def setLocation (r : Recorder) (h : Handle) (l : Location) : Recorder :=
  r.setRange h l.start l.stop

/-- What setting a range between two offsets of a source of `length` bytes is worth a
warning for: that they are swapped, and that they lie outside. -/
def rangeWarnings (length a b : Nat) : List Record :=
  (if b < a then [⟨.warn, s!"violation range {a}..{b} is inverted; swapping"⟩] else []) ++
    (if length < max a b then
      [⟨.warn, s!"violation range {a}..{b} exceeds the {length}-byte buffer; clamping"⟩]
    else [])

end Recorder

end Polyglot
