/-!
# Byte strings

A source buffer is a list of bytes and every offset counts bytes from its front. Slices
clamp to the buffer, so they are total; `at?` is the checked form, which answers only
when the whole range lies inside.
-/

set_option autoImplicit false

namespace Polyglot

/-- The contents of a buffer, front first. -/
abbrev Bytes := List UInt8

namespace Bytes

/-- The byte that ends a line. -/
def newline : UInt8 := 10

/-- The blank that stands in for removed text. -/
def space : UInt8 := 32

/-- Space, tab, line feed, form feed and carriage return. -/
def isBlank (b : UInt8) : Bool :=
  b == 32 || b == 9 || b == 10 || b == 12 || b == 13

/-- The UTF-8 form of a text. -/
def ofString (s : String) : Bytes :=
  s.toList.flatMap String.utf8EncodeChar

/-- The bytes of `start..stop`, as far as the buffer reaches. -/
def slice (bs : Bytes) (start stop : Nat) : Bytes :=
  (bs.take stop).drop start

/-- The bytes of `start..stop` when that range is not inverted and lies in the buffer. -/
def at? (bs : Bytes) (start stop : Nat) : Option Bytes :=
  if start ≤ stop ∧ stop ≤ bs.length then some (bs.slice start stop) else none

/-- The number of blanks at the front. -/
def leadingBlanks (bs : Bytes) : Nat :=
  (bs.takeWhile isBlank).length

/-- The number of blanks at the back. -/
def trailingBlanks (bs : Bytes) : Nat :=
  leadingBlanks bs.reverse

theorem length_slice (bs : Bytes) (start stop : Nat) :
    (bs.slice start stop).length = min stop bs.length - start := by
  simp only [slice, List.length_drop, List.length_take]

/-- A slice of a slice is a slice of the buffer. -/
theorem slice_slice (bs : Bytes) {start stop lo hi : Nat} (h : start + hi ≤ stop) :
    (bs.slice start stop).slice lo hi = bs.slice (start + lo) (start + hi) := by
  simp only [slice, List.take_drop, List.take_take, List.drop_drop, Nat.min_eq_left h]

end Bytes

end Polyglot
