import Polyglot.Bounds

/-!
# Blanking regions

A region of a buffer begins with one marker and ends with another. A loop looks for the next region
and overwrites it with spaces, newlines apart, until no region begins any more. It searches the
buffer that it overwrites, from the end of the last region on.
-/

set_option autoImplicit false

namespace Polyglot

/-- The buffer as far as it is overwritten, and the offset from which the search goes on. -/
structure Blanking where
  buffer : Array UInt8
  next : Nat

namespace Blanking

variable {buffer : Array UInt8} {text : Bytes} {i lo : Nat}

/-- Nothing is overwritten. -/
def ofSlice (slice : Bytes) : Blanking :=
  ⟨slice.toArray, 0⟩

/-- Whether a text stands in the buffer at an offset. -/
def standsAt (buffer : Array UInt8) : Bytes → Nat → Bool
  | [], _ => true
  | b :: text, offset => buffer[offset]? == some b && standsAt buffer text (offset + 1)

/-- The first of `count` offsets from `offset` on at which the text stands. -/
def search (buffer : Array UInt8) (text : Bytes) : Nat → Nat → Option Nat
  | 0, _ => none
  | count + 1, offset =>
    if standsAt buffer text offset then some offset else search buffer text count (offset + 1)

/-- The first offset from `lo` on at which the text stands. An empty text stands nowhere. -/
def find? (buffer : Array UInt8) (text : Bytes) (lo : Nat) : Option Nat :=
  if text.isEmpty then none else search buffer text (buffer.size + 1 - text.length - lo) lo

/-- What becomes of a byte in a region: a newline stays one. -/
def blank (b : UInt8) : UInt8 :=
  if b == Bytes.newline then b else Bytes.space

/-- The buffer with `count` bytes from `offset` on overwritten. -/
def blankFrom (buffer : Array UInt8) : Nat → Nat → Array UInt8
  | 0, _ => buffer
  | count + 1, offset => blankFrom (buffer.modify offset blank) count (offset + 1)

/-- Where a region ends whose opening marker ends at `body`: behind the first closing marker from
there on, or with the buffer if there is none. -/
def stopOf (buffer : Array UInt8) (closing : Bytes) (body : Nat) : Nat :=
  match find? buffer closing body with
  | some offset => offset + closing.length
  | none => buffer.size

/-- The number of bytes that the search has not come by. -/
def remaining (c : Blanking) : Nat :=
  c.buffer.size - c.next

theorem standsAt_length (h : standsAt buffer text i = true) :
    text = [] ∨ i + text.length ≤ buffer.size := by
  induction text generalizing i with
  | nil => exact .inl rfl
  | cons b text ih =>
    simp only [standsAt, Bool.and_eq_true, beq_iff_eq] at h
    have hlt := (Array.getElem?_eq_some_iff.1 h.1).1
    rcases ih h.2 with rfl | hle
    · exact .inr hlt
    · exact .inr (by simp only [List.length_cons]; omega)

/-- What a search finds is an offset of the range that it looks through, and the text stands there. -/
theorem of_search {count offset : Nat} (h : search buffer text count offset = some i) :
    offset ≤ i ∧ standsAt buffer text i = true := by
  induction count generalizing offset with
  | zero => cases h
  | succ count ih =>
    rw [search] at h
    split at h
    · next hstands =>
      obtain rfl := Option.some.inj h
      exact ⟨Nat.le_refl _, hstands⟩
    · obtain ⟨hle, hstands⟩ := ih h
      exact ⟨by omega, hstands⟩

/-- What is found lies in the buffer. -/
theorem of_find? (h : find? buffer text lo = some i) :
    lo ≤ i ∧ i + text.length ≤ buffer.size ∧ 0 < text.length := by
  unfold find? at h
  split at h
  · cases h
  · next hne =>
    obtain ⟨hle, hstands⟩ := of_search h
    have hne : text ≠ [] := by simpa using hne
    exact ⟨hle, (standsAt_length hstands).resolve_left hne, List.length_pos_iff.2 hne⟩

@[simp] theorem size_blankFrom (buffer : Array UInt8) (count offset : Nat) :
    (blankFrom buffer count offset).size = buffer.size := by
  induction count generalizing buffer offset with
  | zero => rfl
  | succ count ih => rw [blankFrom, ih, Array.size_modify]

/-- A region that is found brings the search on. -/
theorem remaining_of_find? {c : Blanking} {opening : Bytes} {start : Nat}
    (h : find? c.buffer opening c.next = some start) (count stop : Nat) :
    remaining ⟨blankFrom c.buffer count start, max stop (start + 1)⟩ < c.remaining := by
  obtain ⟨hle, hlt, hpos⟩ := of_find? h
  simp only [remaining, size_blankFrom]
  omega

section Loop

variable {m : Type → Type} [Monad m] (bounds : Bounds m) (opening closing : Bytes)

/-- One turn of the loop, unless no region begins any more. What it searches and what it overwrites
has to lie in the buffer. -/
def turnBy (c : Blanking) : m (Option { next : Blanking // next.remaining < c.remaining }) := do
  bounds c.buffer.size ⟨c.next, c.buffer.size⟩
  match h : find? c.buffer opening c.next with
  | none => return none
  | some start =>
    let body := start + opening.length
    bounds c.buffer.size ⟨body, c.buffer.size⟩
    let stop := stopOf c.buffer closing body
    bounds c.buffer.size ⟨start, stop⟩
    return some ⟨_, remaining_of_find? h (stop - start) stop⟩

/-- The buffer once no region begins any more. -/
@[semireducible]
def runBy (c : Blanking) : m (Array UInt8) := do
  match ← turnBy bounds opening closing c with
  | none => return c.buffer
  | some next => runBy next.val
termination_by c.remaining
decreasing_by exact next.property

end Loop

/-- One turn of the loop, unless no region begins any more. -/
def step (opening closing : Bytes) (c : Blanking) : Option Blanking :=
  (Id.run (turnBy .trusting opening closing c)).map (·.val)

/-- The buffer once no region begins any more. -/
def run (opening closing : Bytes) (c : Blanking) : Array UInt8 :=
  Id.run (runBy .trusting opening closing c)

section Equations

variable {opening closing : Bytes} {c next : Blanking}

theorem step_eq (opening closing : Bytes) (c : Blanking) :
    c.step opening closing = (find? c.buffer opening c.next).map fun start =>
      let stop := stopOf c.buffer closing (start + opening.length)
      ⟨blankFrom c.buffer (stop - start) start, max stop (start + 1)⟩ := by
  unfold step turnBy
  simp only [Bounds.trusting]
  split
  · next h =>
    conv => rhs; rw [h]
    rfl
  · next start h =>
    conv => rhs; rw [h]
    rfl

/-- A turn brings the search on. -/
theorem remaining_of_step (h : c.step opening closing = some next) :
    next.remaining < c.remaining := by
  obtain ⟨found, -, rfl⟩ := Option.map_eq_some_iff.1 h
  exact found.property

theorem run_of_step (h : c.step opening closing = some next) :
    c.run opening closing = next.run opening closing := by
  obtain ⟨found, hturn, rfl⟩ := Option.map_eq_some_iff.1 h
  unfold run
  rw [runBy, Id.run_bind, hturn]

theorem run_of_step_none (h : c.step opening closing = none) :
    c.run opening closing = c.buffer := by
  have hturn := Option.map_eq_none_iff.1 h
  unfold run
  rw [runBy, Id.run_bind, hturn]
  rfl

end Equations

end Blanking

end Polyglot
