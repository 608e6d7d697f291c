import Polyglot.Proofs.OffsetMap.Composition

/-!
# Maps that shift

A map shifts when it leads every range over by one and the same distance. The map of a whole
buffer does, and what is cut out of the bytes of such a map is shifted once more
(`shifted_andThen`); only where no byte is cut out does a replacement come of it.

That all segments are linear is not enough for a map to shift, for there can be gaps between
their targets. In a seamless map a replacement is found at every gap, so a seamless linear map
shifts (`Seamless.shifts`). Composition drops what the outer map deletes where two inner segments
meet; it keeps maps seamless if no two copied segments of the inner map do (`Seamless.andThen`).
-/

set_option autoImplicit false

namespace Polyglot

namespace Segment

/-- The segment is a replacement whose bytes reach up to the offset. -/
def Reaches (s : Segment) (i : Nat) : Prop :=
  s.linear = false ∧ s.parsed.start ≤ i ∧ i ≤ s.parsed.stop

/-- Bytes on both sides of the offset were copied together. -/
def Surrounds (s : Segment) (i : Nat) : Prop :=
  s.linear = true ∧ s.parsed.start < i ∧ i < s.parsed.stop

end Segment

namespace OffsetMap

variable {m inner outer : OffsetMap} {s o : Segment} {i n r len base : Nat}

/-- Every range is led over by `base`. -/
structure Shifts (m : OffsetMap) (base : Nat) : Prop where
  targetSpan : m.targetSpan = ⟨base, base + m.parsedLength⟩
  mapRange : ∀ {a b : Nat}, a ≤ b → b ≤ m.parsedLength → m.mapRange a b = ⟨base + a, base + b⟩

/-- A map that shifts starts and ends shifts ranges. -/
theorem Shifts.of_ends (hspan : m.targetSpan = ⟨base, base + m.parsedLength⟩)
    (hstart : ∀ i ≤ m.parsedLength, m.mapStart i = base + i)
    (hend : ∀ i ≤ m.parsedLength, m.mapEnd i = base + i) : m.Shifts base := by
  refine ⟨hspan, fun {a b} hab hb => ?_⟩
  by_cases hpos : 0 < m.parsedLength
  · rw [mapRange_of_pos hpos, hstart a (by omega), hend b hb, Nat.min_eq_left (by omega)]
  · obtain rfl : b = 0 := by omega
    obtain rfl : a = 0 := by omega
    rw [mapRange_of_zero (by omega), hspan]
    simp only [Span.mk.injEq]
    omega

/-! ## Shifted bytes -/

@[simp] theorem targetSpan_shifted (len base : Nat) :
    (shifted len base).targetSpan = ⟨base, base + len⟩ := by
  simp [shifted, targetSpan, Segment.copied, Span.length]

theorem mapStart_shifted (hi : i ≤ len) : (shifted len base).mapStart i = base + i := by
  unfold mapStart
  rcases Nat.lt_or_eq_of_le hi with hlt | rfl
  · simp [shifted, Segment.copied, hlt]
  · simp [shifted, targetSpan, Segment.copied, Span.length]

theorem mapEnd_shifted (hi : i ≤ len) : (shifted len base).mapEnd i = base + i := by
  unfold mapEnd
  by_cases hpos : 0 < i
  · simp [shifted, Segment.copied, hpos, Span.length, hi]
  · simp [shifted, Segment.copied, hpos, targetSpan, Span.length]
    omega

theorem shifts_shifted (len base : Nat) : (shifted len base).Shifts base :=
  .of_ends (targetSpan_shifted len base) (fun _ => mapStart_shifted) fun _ => mapEnd_shifted

theorem shiftTargets_identity (len base : Nat) :
    (identity len).shiftTargets base = shifted len base := by
  simp [identity, shiftTargets, shifted, Segment.copied, Span.shift, Span.length, Nat.add_comm]

/-- The map of `len` bytes that were cut out from `base` on. Of no bytes there is no copy, only a
replacement of nothing. -/
def cutOut (len base : Nat) : OffsetMap :=
  if len = 0 then ⟨[Segment.replaced ⟨0, 0⟩ ⟨base, base⟩]⟩ else shifted len base

theorem cutOut_zero (base : Nat) : cutOut 0 base = ⟨[Segment.replaced ⟨0, 0⟩ ⟨base, base⟩]⟩ :=
  if_pos rfl

theorem cutOut_of_pos (hlen : 0 < len) : cutOut len base = shifted len base :=
  if_neg (Nat.ne_of_gt hlen)

theorem shifts_cutOut (len base : Nat) : (cutOut len base).Shifts base := by
  cases len with
  | zero =>
    rw [cutOut_zero]
    refine .of_ends ?_ ?_ ?_
    · simp [targetSpan, parsedLength, Segment.replaced]
    · intro i hi
      obtain rfl : i = 0 := by simpa [parsedLength, Segment.replaced] using hi
      simp [mapStart, targetSpan, Segment.replaced]
    · intro i hi
      obtain rfl : i = 0 := by simpa [parsedLength, Segment.replaced] using hi
      simp [mapEnd_zero, targetSpan, Segment.replaced]
  | succ len =>
    rw [cutOut_of_pos (Nat.succ_pos len)]
    exact shifts_shifted _ _

@[simp] theorem parsedLength_shifted (len base : Nat) : (shifted len base).parsedLength = len := rfl

@[simp] theorem parsedLength_cutOut (len base : Nat) : (cutOut len base).parsedLength = len := by
  unfold cutOut
  split
  · next hzero => exact hzero.symm
  · rfl

@[simp] theorem isLinear_shifted (len base : Nat) : (shifted len base).isLinear = true := rfl

theorem isLinear_cutOut (len base : Nat) : (cutOut len base).isLinear = true ↔ len ≠ 0 := by
  unfold cutOut
  split
  · next hzero => simp [isLinear, Segment.replaced, hzero]
  · next hpos => simp [isLinear_shifted, hpos]

/-- Bytes that are cut out of shifted bytes are shifted by both distances. -/
theorem shifted_andThen_shifted (hn : 0 < n) (hr : r + n ≤ len) :
    (shifted n r).andThen (shifted len base) = shifted n (base + r) := by
  have hlin : (Segment.copied ⟨0, n⟩ r).linear = true := rfl
  have hlt : (Segment.copied ⟨0, n⟩ r).target.start < (Segment.copied ⟨0, n⟩ r).target.stop := by
    simp only [Segment.copied, Span.length]
    omega
  have hshared : sharedPart (Segment.copied ⟨0, n⟩ r) (Segment.copied ⟨0, len⟩ base) =
      [Segment.copied ⟨0, n⟩ (base + r)] := by
    have hlen : ¬ len ≤ 0 := by omega
    simp only [sharedPart, Segment.copied, Span.isEmpty, Span.length, hlen, decide_false,
      Bool.false_eq_true, if_false, if_true]
    rw [show max 0 r = r by omega, show min len (r + (n - 0)) = r + n by omega,
      if_neg (by omega)]
    simp
  have hsegments : (shifted n r).segments = [Segment.copied ⟨0, n⟩ r] := rfl
  unfold andThen
  rw [hsegments, List.flatMap_singleton, through_of_linear hlin hlt]
  show ofSegments ([Segment.copied ⟨0, len⟩ base].flatMap _) = _
  rw [List.flatMap_singleton, hshared]
  rfl

/-- No bytes, cut out of what is shifted, leave a replacement of nothing. -/
theorem shifted_zero_andThen (h : outer.Shifts base) (hr : r ≤ outer.parsedLength) :
    (shifted 0 r).andThen outer = cutOut 0 (base + r) := by
  have hwhole : (Segment.copied ⟨0, 0⟩ r).linear = true →
      (Segment.copied ⟨0, 0⟩ r).target.stop ≤ (Segment.copied ⟨0, 0⟩ r).target.start :=
    fun _ => Nat.le_refl _
  have hsegments : (shifted 0 r).segments = [Segment.copied ⟨0, 0⟩ r] := rfl
  unfold andThen
  rw [hsegments, List.flatMap_singleton, through_of_whole hwhole,
    show outer.mapRange (Segment.copied ⟨0, 0⟩ r).target.start
      (Segment.copied ⟨0, 0⟩ r).target.stop = outer.mapRange r r from rfl,
    h.mapRange (Nat.le_refl r) hr, cutOut_zero]
  rfl

/-- What is cut out of a buffer, or out of what was cut out of one, is cut out of the buffer. -/
theorem shifted_andThen (houter : outer = shifted len base ∨ outer = cutOut len base)
    (hr : r + n ≤ len) : (shifted n r).andThen outer = cutOut n (base + r) := by
  cases n with
  | zero =>
    rcases houter with rfl | rfl
    · exact shifted_zero_andThen (shifts_shifted _ _) (by rw [parsedLength_shifted]; omega)
    · exact shifted_zero_andThen (shifts_cutOut _ _) (by rw [parsedLength_cutOut]; omega)
  | succ n =>
    have houter : outer = shifted len base := by
      rcases houter with rfl | rfl
      · rfl
      · exact cutOut_of_pos (by omega)
    rw [houter, cutOut_of_pos (Nat.succ_pos n)]
    exact shifted_andThen_shifted (Nat.succ_pos n) hr

/-! ## Seams -/

/-- Wherever an end and a start at one offset go apart, a replacement reaches up to it. -/
def Seamless (m : OffsetMap) : Prop :=
  ∀ i ≤ m.parsedLength, (∃ s ∈ m.segments, s.Reaches i) ∨ m.mapEnd i = m.mapStart i

/-- No two copied segments meet. -/
def Unsplit (m : OffsetMap) : Prop :=
  ∀ i, 0 < i → i < m.parsedLength → ∃ s ∈ m.segments, s.Reaches i ∨ s.Surrounds i

theorem seamless_shifted (len base : Nat) : (shifted len base).Seamless := by
  intro i hi
  rw [parsedLength_shifted] at hi
  rw [mapEnd_shifted hi, mapStart_shifted hi]
  exact .inr rfl

theorem Unsplit.shiftTargets (h : m.Unsplit) (base : Nat) : (m.shiftTargets base).Unsplit := by
  intro i hpos hi
  rw [parsedLength_shiftTargets] at hi
  obtain ⟨s, hs, his⟩ := h i hpos hi
  exact ⟨_, mem_shiftTargets.2 ⟨s, hs, rfl⟩, his⟩

/-- A linear map without seams shifts. -/
theorem Seamless.shifts (hm : m.WellFormed) (h : m.Seamless) (hlin : m.isLinear = true) :
    m.Shifts m.targetSpan.start := by
  have hlin : ∀ s ∈ m.segments, s.linear = true := by
    simpa [isLinear] using hlin
  have hmeet : ∀ i ≤ m.parsedLength, m.mapEnd i = m.mapStart i := by
    intro i hi
    rcases h i hi with ⟨s, hs, hreaches⟩ | heq
    · have hcopied := hlin s hs
      rw [hreaches.1] at hcopied
      cases hcopied
    · exact heq
  have hend : ∀ i ≤ m.parsedLength, m.mapEnd i = m.targetSpan.start + i := by
    intro i hi
    induction i with
    | zero => exact mapEnd_zero m
    | succ i ih =>
      obtain ⟨s, hs, his⟩ := hm.exists_segment hi
      have hstart := hm.mapStart_of_mem hs his
      rw [← hmeet i (by omega), ih (by omega)] at hstart
      rw [hm.mapEnd_of_mem hs his]
      simp only [Segment.image, hlin s hs, if_true] at hstart ⊢
      have := his.1
      omega
  have hstart : ∀ i ≤ m.parsedLength, m.mapStart i = m.targetSpan.start + i := by
    intro i hi
    rw [← hmeet i hi, hend i hi]
  refine Shifts.of_ends ?_ hstart hend
  have hstop := hm.mapStart_of_le (Nat.le_refl m.parsedLength)
  rw [hstart _ (Nat.le_refl _)] at hstop
  rw [hstop]

/-! ## Composition keeps maps seamless -/

section Border

variable (hm : m.WellFormed) (hne : m.segments ≠ [])
  (hsolid : ∀ s ∈ m.segments, s.linear = true → s.parsed.start < s.parsed.stop)
include hm hne hsolid

/-- In front of a map with a byte in each copied segment there is no gap. -/
theorem seamless_zero : (∃ s ∈ m.segments, s.Reaches 0) ∨ m.mapEnd 0 = m.mapStart 0 := by
  have hmem := List.head_mem hne
  have hfirst : (m.segments.head hne).parsed.start = 0 := by
    have htiles := hm.tiles
    obtain ⟨s, rest, hm⟩ := List.exists_cons_of_ne_nil hne
    simp only [hm, List.map_cons] at htiles
    simpa [hm] using htiles.1
  cases hlin : (m.segments.head hne).linear with
  | false => exact .inl ⟨_, hmem, hlin, Nat.le_of_eq hfirst, Nat.zero_le _⟩
  | true =>
    have hlt := hsolid _ hmem hlin
    right
    rw [mapEnd_zero, hm.mapStart_of_mem hmem ⟨Nat.le_of_eq hfirst, by omega⟩]
    simp [targetSpan, Segment.image, hlin, List.head?_eq_some_head hne]

/-- Neither is there one behind it. -/
theorem seamless_parsedLength : (∃ s ∈ m.segments, s.Reaches m.parsedLength) ∨
    m.mapEnd m.parsedLength = m.mapStart m.parsedLength := by
  have hmem := List.getLast_mem hne
  have hlast : (m.segments.getLast hne).parsed.stop = m.parsedLength := by
    simp [parsedLength, List.getLast?_eq_some_getLast hne]
  have hup := (hm.parsed_of_mem hmem).1
  cases hlin : (m.segments.getLast hne).linear with
  | false => exact .inl ⟨_, hmem, hlin, by omega, Nat.le_of_eq hlast.symm⟩
  | true =>
    have hlt := hsolid _ hmem hlin
    have hlen := hm.copied _ hmem hlin
    have htarget := hm.upright _ hmem
    obtain ⟨k, hk⟩ : ∃ k, m.parsedLength = k + 1 := ⟨m.parsedLength - 1, by omega⟩
    right
    rw [hm.mapStart_of_le (Nat.le_refl _),
      hm.stop_targetSpan (List.getLast?_eq_some_getLast hne), hk,
      hm.mapEnd_of_mem hmem ⟨by omega, by omega⟩]
    simp only [Span.length] at hlen
    simp only [Segment.image, hlin, if_true]
    omega

end Border

/-- A replacement of the outer map that reaches up to a place inside a copied segment leaves a
piece that does. -/
theorem exists_piece_reaching (ho : o ∈ outer.segments) (hlin : s.linear = true)
    (hlo : s.parsed.start < i) (hhi : i < s.parsed.stop)
    (hlen : s.target.length = s.parsed.length)
    (hreaches : o.Reaches (s.target.start + (i - s.parsed.start))) :
    ∃ x ∈ through s outer, x.Reaches i := by
  obtain ⟨hreplaced, hstart, hstop⟩ := hreaches
  simp only [Span.length] at hlen
  rw [through_of_linear hlin (by omega)]
  suffices h : ∃ x ∈ sharedPart s o, x.Reaches i by
    obtain ⟨x, hx, hxi⟩ := h
    exact ⟨x, List.mem_flatMap.2 ⟨o, ho, hx⟩, hxi⟩
  unfold sharedPart
  by_cases hempty : o.parsed.isEmpty = true
  · -- What is deleted strictly inside the segment is kept.
    have hle : o.parsed.stop ≤ o.parsed.start := by simpa [Span.isEmpty] using hempty
    rw [if_pos hempty, if_pos (by omega)]
    refine ⟨_, List.mem_singleton.2 rfl, rfl, ?_, ?_⟩ <;> simp only [Segment.replaced] <;> omega
  · have hlt : ¬ o.parsed.stop ≤ o.parsed.start := by simpa [Span.isEmpty] using hempty
    rw [if_neg hempty]
    simp only
    rw [if_neg (by omega), if_neg (by simp [hreplaced])]
    refine ⟨_, List.mem_singleton.2 rfl, rfl, ?_, ?_⟩ <;> simp only [Segment.replaced] <;> omega

/-- Inside a copied segment of the inner map a composition has a gap only where the outer map has
one, and the replacement that is found there leaves a piece. -/
theorem Seamless.of_surrounds (h : outer.Seamless) (hi : inner.WellFormed) (ho : outer.WellFormed)
    (hin : inner.TargetsIn ⟨0, outer.parsedLength⟩) (hs : s ∈ inner.segments)
    (his : s.Surrounds i) : (∃ x ∈ (inner.andThen outer).segments, x.Reaches i) ∨
      (inner.andThen outer).mapEnd i = (inner.andThen outer).mapStart i := by
  obtain ⟨hlin, hlo, hhi⟩ := his
  obtain ⟨k, rfl⟩ : ∃ k, i = k + 1 := ⟨i - 1, by omega⟩
  have hbefore : k ∈ s.parsed := ⟨by omega, by omega⟩
  have hbehind : k + 1 ∈ s.parsed := ⟨by omega, by omega⟩
  have hend := (image_andThen_of_linear hi ho hin hs hlin hbefore).2
  have hstart := (image_andThen_of_linear hi ho hin hs hlin hbehind).1
  rw [hi.mapEnd_of_mem hs hbefore] at hend
  rw [hi.mapStart_of_mem hs hbehind] at hstart
  simp only [Segment.image, hlin, if_true] at hend hstart
  have hcopied := hi.copied s hs hlin
  have htarget := (hin s hs).2
  have hplace : s.target.start + (k + 1 - s.parsed.start) ≤ outer.parsedLength := by
    simp only [Span.length] at hcopied
    simp only at htarget
    omega
  rcases h _ hplace with ⟨o, hmo, hreaches⟩ | heq
  · obtain ⟨x, hx, hxi⟩ := exists_piece_reaching hmo hlin hlo hhi hcopied hreaches
    exact .inl ⟨x, mem_andThen hs hx, hxi⟩
  · right
    rw [hend, hstart, heq]

/-- Composition keeps maps seamless if no two copied segments of the inner map meet. -/
theorem Seamless.andThen (h : outer.Seamless) (hi : inner.WellFormed) (ho : outer.WellFormed)
    (hin : inner.TargetsIn ⟨0, outer.parsedLength⟩) (hne : inner.segments ≠ [])
    (hunsplit : inner.Unsplit) : (inner.andThen outer).Seamless := by
  intro i hle
  have hlen := parsedLength_andThen hi ho hin
  have hc := hi.andThen ho hin
  have hcne : (inner.andThen outer).segments ≠ [] := ofSegments_ne_nil _
  have hsolid : ∀ x ∈ (inner.andThen outer).segments, x.linear = true →
      x.parsed.start < x.parsed.stop :=
    fun x hx hlin => parsed_lt_of_mem_andThen hi ho hin hne hx hlin
  rcases Nat.eq_zero_or_pos i with rfl | hpos
  · exact seamless_zero hc hcne hsolid
  rcases Nat.lt_or_eq_of_le hle with hlt | rfl
  · obtain ⟨s, hs, hreaches | hsurrounds⟩ := hunsplit i hpos (by omega)
    · -- A replacement is led on as a whole.
      have hx : Segment.replaced s.parsed (outer.mapRange s.target.start s.target.stop) ∈
          through s outer := by
        rw [through_of_whole (by simp [hreaches.1])]
        exact List.mem_cons_self
      exact .inl ⟨_, mem_andThen hs hx, rfl, hreaches.2⟩
    · exact h.of_surrounds hi ho hin hs hsurrounds
  · exact seamless_parsedLength hc hcne hsolid

end OffsetMap

end Polyglot
