import Polyglot.Bytes
import Polyglot.Span

/-!
# Bounds

A range that is taken out of a buffer has to lie in it, and code that slices relies on that. Such
code is written over any monad and any look at the ranges (`Bounds`). It runs with `trusting`, which
costs nothing and sees nothing; with `strict` the same code stops at the first range that is out of
bounds.
-/

set_option autoImplicit false

namespace Polyglot

/-- A range that was to be taken out of too short a buffer. -/
structure OutOfBounds where
  range : Span
  length : Nat
deriving DecidableEq, Repr

/-- Looks at a range before it is taken out of a buffer of some length. -/
abbrev Bounds (m : Type → Type) :=
  Nat → Span → m Unit

namespace Bounds

/-- Takes every range for granted. -/
def trusting : Bounds Id := fun _ _ => pure ()

/-- Objects to a range that does not lie in the buffer. -/
def strict : Bounds (Except OutOfBounds) := fun length range =>
  if range.fits length then .ok () else .error ⟨range, length⟩

end Bounds

variable {m : Type → Type} [Monad m]

/-- The bytes of `start..stop`, which have to be there. -/
def Bytes.sliceBy (bounds : Bounds m) (bs : Bytes) (start stop : Nat) : m Bytes := do
  bounds bs.length ⟨start, stop⟩
  return bs.slice start stop

/-- Lets every range through that lies in the buffer. -/
def Bounds.Admits (bounds : Bounds m) : Prop :=
  ∀ length range, range.fits length = true → bounds length range = pure ()

section Admitted

variable {bounds : Bounds m} {start stop : Nat}

theorem Bounds.admits_strict : strict.Admits :=
  fun _ _ hfits => if_pos hfits

theorem Bounds.Admits.of_le (h : bounds.Admits) {length : Nat} (hle : start ≤ stop)
    (hstop : stop ≤ length) : bounds length ⟨start, stop⟩ = pure () :=
  h length ⟨start, stop⟩ (Span.fits_iff.2 ⟨hle, hstop⟩)

theorem Bytes.sliceBy_of_le [LawfulMonad m] (h : bounds.Admits) {bs : Bytes} (hle : start ≤ stop)
    (hstop : stop ≤ bs.length) : bs.sliceBy bounds start stop = pure (bs.slice start stop) := by
  rw [sliceBy, h.of_le hle hstop, pure_bind]

end Admitted

end Polyglot
