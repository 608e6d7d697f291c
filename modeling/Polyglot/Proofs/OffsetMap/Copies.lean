import Polyglot.Bytes
import Polyglot.Proofs.OffsetMap.Composition

/-!
# Maps that copy faithfully

A map copies faithfully when each byte of a linear segment is the byte it is led to. Maps into
a slice do so into the buffer the slice was taken from, and a composition of two such maps does
so from one end to the other: no byte is shifted on the way.
-/

set_option autoImplicit false

namespace Polyglot

namespace OffsetMap

variable {m inner outer : OffsetMap} {parsed middle source : Bytes}

/-- Every byte in a linear segment is the byte it is led to. -/
def Copies (m : OffsetMap) (parsed source : Bytes) : Prop :=
  ∀ s ∈ m.segments, s.linear = true → ∀ i ∈ s.parsed, parsed[i]? = source[(s.image i).start]?

theorem copies_ofSegments {segments : List Segment}
    (h : ∀ s ∈ segments, s.linear = true → ∀ i ∈ s.parsed,
      parsed[i]? = source[(s.image i).start]?) : (ofSegments segments).Copies parsed source := by
  cases segments with
  | nil =>
    intro s hs _ i hi
    obtain rfl := List.mem_singleton.1 hs
    exact absurd hi.2 (Nat.not_lt_zero i)
  | cons s rest => exact h

/-- A range in a linear segment holds the bytes that it is led to. -/
theorem Copies.slice (hm : m.WellFormed) (h : m.Copies parsed source) {s : Segment}
    (hs : s ∈ m.segments) (hlin : s.linear = true) {i n : Nat} (hi : s.parsed.start ≤ i)
    (hn : i + n ≤ s.parsed.stop) :
    source.slice (m.mapStart i) (m.mapStart i + n) = parsed.slice i (i + n) := by
  apply List.ext_getElem?
  intro k
  simp only [Bytes.slice, List.getElem?_drop]
  by_cases hk : k < n
  · have hik : i + k ∈ s.parsed := ⟨by omega, by omega⟩
    have himage : (s.image (i + k)).start = m.mapStart i + k := by
      rw [hm.mapStart_of_mem hs (i := i) ⟨hi, by omega⟩]
      simp only [Segment.image, hlin, if_true]
      omega
    rw [List.getElem?_take_of_lt (by omega), List.getElem?_take_of_lt (by omega),
      h s hs hlin (i + k) hik, himage]
  · rw [List.getElem?_take_eq_none (by omega), List.getElem?_take_eq_none (by omega)]

/-- What was copied from a slice was copied from where the slice stands. -/
theorem Copies.shiftTargets {start stop : Nat} (hm : m.WellFormed)
    (h : m.Copies parsed (source.slice start stop))
    (hin : m.TargetsIn ⟨0, (source.slice start stop).length⟩) :
    (m.shiftTargets start).Copies parsed source := by
  intro s hs hlin i hi
  obtain ⟨t, ht, rfl⟩ := mem_shiftTargets.1 hs
  have hlin : t.linear = true := hlin
  obtain ⟨hup, himage⟩ := hm.image_inside ht hi
  have hstop := (hin t ht).2
  have hlast := himage.2
  have hcopied := h t ht hlin i hi
  simp only [Segment.image, hlin, if_true, Bytes.slice, List.length_drop, List.length_take,
    Span.shift] at hlast hstop hcopied ⊢
  obtain ⟨hlo, hhi⟩ := hi
  simp only at hlo hhi
  rw [hcopied, List.getElem?_drop, List.getElem?_take_of_lt (by omega)]
  congr 1
  omega

/-- Faithful copies of faithful copies are faithful. -/
theorem Copies.andThen (hi : inner.WellFormed) (ho : outer.WellFormed)
    (hin : inner.TargetsIn ⟨0, outer.parsedLength⟩) (hinner : inner.Copies parsed middle)
    (houter : outer.Copies middle source) : (inner.andThen outer).Copies parsed source := by
  apply copies_ofSegments
  intro x hx hlin i hix
  obtain ⟨s, hs, hx⟩ := List.mem_flatMap.1 hx
  obtain ⟨hslin, his, o, hmo, holin, hko⟩ :=
    linear_of_mem_through ho (hi.copied s hs) hx hlin hix
  have hfirst : inner.mapStart i = s.target.start + (i - s.parsed.start) := by
    rw [hi.mapStart_of_mem hs his]
    simp only [Segment.image, hslin, if_true]
  rw [← hfirst] at hko
  calc
    parsed[i]? = middle[inner.mapStart i]? := by
      rw [hi.mapStart_of_mem hs his]
      exact hinner s hs hslin i his
    _ = source[outer.mapStart (inner.mapStart i)]? := by
      rw [ho.mapStart_of_mem hmo hko]
      exact houter o hmo holin _ hko
    _ = source[(inner.andThen outer).mapStart i]? := by
      rw [(image_andThen_of_linear hi ho hin hs hslin his).1]
    _ = source[(x.image i).start]? := by
      rw [(hi.andThen ho hin).mapStart_of_mem (mem_andThen hs hx) hix]

end OffsetMap

end Polyglot
