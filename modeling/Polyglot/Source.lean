import Polyglot.LineIndex
import Polyglot.Text.Utf8

/-!
# Sources

A source is a buffer with its line index. Every position that is reported anywhere is a
location in the one source of a file.
-/

set_option autoImplicit false

namespace Polyglot

/-- A buffer and the index of its lines. -/
structure Source where
  bytes : Bytes
  lines : LineIndex

namespace Source

/-- The source with the given contents. -/
def ofBytes (bs : Bytes) : Source :=
  ⟨bs, LineIndex.ofBytes bs⟩

/-- The length in bytes. -/
def length (s : Source) : Nat :=
  s.bytes.length

/-- The decoded text; malformed bytes are replaced. -/
def text (s : Source) : String :=
  Utf8.decodeLossy s.bytes

/-- The bytes of `start..stop`, moved into the buffer where it does not lie in it. -/
def slice (s : Source) (start stop : Nat) : Bytes :=
  let start := min start s.bytes.length
  s.bytes.slice start (max start (min stop s.bytes.length))

/-- The location of a span. -/
def locate (s : Source) (start stop : Nat) : Location :=
  s.lines.locate start stop

/-- The point of an offset. -/
def pointOf (s : Source) (offset : Nat) : Point :=
  s.lines.pointOf offset

/-- The offset of a point. -/
def offsetOf (s : Source) (p : Point) : Nat :=
  s.lines.offsetOf p

@[simp] theorem bytes_ofBytes (bs : Bytes) : (ofBytes bs).bytes = bs := rfl

@[simp] theorem length_ofBytes (bs : Bytes) : (ofBytes bs).length = bs.length := rfl

@[simp] theorem lines_ofBytes (bs : Bytes) : (ofBytes bs).lines = LineIndex.ofBytes bs := rfl

end Source

end Polyglot
