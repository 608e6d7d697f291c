/-!
# Spans

A span is a half-open interval of byte offsets. Nothing keeps it from being inverted:
whoever slices by a span checks it first.
-/

set_option autoImplicit false

namespace Polyglot

/-- The offsets from `start` up to and without `stop`. -/
structure Span where
  start : Nat
  stop : Nat
deriving DecidableEq, Repr, Inhabited

namespace Span

/-- The number of offsets in the span. -/
def length (s : Span) : Nat :=
  s.stop - s.start

/-- Whether the span holds no offset. -/
def isEmpty (s : Span) : Bool :=
  s.stop ≤ s.start

/-- The span `base` further on. -/
def shift (s : Span) (base : Nat) : Span :=
  ⟨s.start + base, s.stop + base⟩

/-- Whether the span can be sliced out of a buffer of `len` bytes. -/
def fits (s : Span) (len : Nat) : Bool :=
  s.start ≤ s.stop && s.stop ≤ len

/-- The span as it is printed. -/
def text (s : Span) : String :=
  s!"{s.start}..{s.stop}"

theorem fits_iff {s : Span} {len : Nat} : s.fits len = true ↔ s.start ≤ s.stop ∧ s.stop ≤ len := by
  simp [fits]

end Span

end Polyglot
