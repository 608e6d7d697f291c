import Polyglot.Proofs.OffsetMap.Pieces

/-!
# Composition of well-formed maps

A composition of well-formed maps is well-formed and leads no further than the outer map. It
maps a range as the two maps one after the other do, except that bytes put in where the outer
map deletes are led to the deletion as well, so that a range from there on starts earlier.
-/

set_option autoImplicit false

namespace Polyglot

namespace OffsetMap

variable {inner outer : OffsetMap} {s x : Segment} {a b : Nat}

/-- Composition keeps maps well-formed. -/
theorem WellFormed.andThen (hi : inner.WellFormed) (ho : outer.WellFormed)
    (hin : inner.TargetsIn ⟨0, outer.parsedLength⟩) : (inner.andThen outer).WellFormed := by
  apply WellFormed.ofSegments (tiles_andThen hi ho hin)
  · intro x hx
    obtain ⟨s, hs, hx⟩ := List.mem_flatMap.1 hx
    exact (of_mem_through ho hx).1
  · intro x hx
    obtain ⟨s, hs, hx⟩ := List.mem_flatMap.1 hx
    exact (of_mem_through ho hx).2.2
  · rw [List.pairwise_flatMap]
    refine ⟨fun s _ => pairwise_through ho, hi.precedes.imp_of_mem ?_⟩
    intro s t hs ht hst x hx y hy
    exact precedes_of_mem_through hi ho hin hs ht hst hx hy

/-- A composition leads no further than the outer map. -/
theorem targetsIn_andThen (ho : outer.WellFormed) {n : Nat} (hn : outer.TargetsIn ⟨0, n⟩) :
    (inner.andThen outer).TargetsIn ⟨0, n⟩ := by
  apply targetsIn_ofSegments rfl
  intro x hx
  obtain ⟨s, hs, hx⟩ := List.mem_flatMap.1 hx
  have hin := (of_mem_through ho hx).2.1
  exact ⟨Nat.zero_le _, Nat.le_trans hin.2 (ho.stop_targetSpan_le hn)⟩

/-- The segments of a composition are the pieces of those of the inner map. -/
theorem segments_andThen (hi : inner.WellFormed) (ho : outer.WellFormed)
    (hin : inner.TargetsIn ⟨0, outer.parsedLength⟩) (hne : inner.segments ≠ []) :
    (inner.andThen outer).segments = inner.segments.flatMap fun s => through s outer := by
  have hmem := List.head_mem hne
  apply segments_ofSegments
  intro hnil
  apply through_ne_nil ho (hi.copied _ hmem) (hin _ hmem).2
  exact List.flatMap_eq_nil_iff.1 hnil _ hmem

/-- The target span of a composition reaches no further than that of the outer map. -/
theorem targetSpan_andThen (hi : inner.WellFormed) (ho : outer.WellFormed)
    (hin : inner.TargetsIn ⟨0, outer.parsedLength⟩) (hne : inner.segments ≠ []) :
    (inner.andThen outer).targetSpan.Inside outer.targetSpan := by
  apply (hi.andThen ho hin).targetSpan_inside (ofSegments_ne_nil _)
  intro x hx
  rw [segments_andThen hi ho hin hne] at hx
  obtain ⟨s, hs, hx⟩ := List.mem_flatMap.1 hx
  exact (of_mem_through ho hx).2.1

/-- Linear segments of a composition hold a byte. -/
theorem parsed_lt_of_mem_andThen (hi : inner.WellFormed) (ho : outer.WellFormed)
    (hin : inner.TargetsIn ⟨0, outer.parsedLength⟩) (hne : inner.segments ≠ [])
    (hx : x ∈ (inner.andThen outer).segments) (hlin : x.linear = true) :
    x.parsed.start < x.parsed.stop := by
  rw [segments_andThen hi ho hin hne] at hx
  obtain ⟨s, hs, hx⟩ := List.mem_flatMap.1 hx
  exact parsed_lt_of_linear ho hx hlin

/-! ## Bytes -/

theorem mem_andThen (hs : s ∈ inner.segments) (hx : x ∈ through s outer) :
    x ∈ (inner.andThen outer).segments := by
  have hmem : x ∈ inner.segments.flatMap fun s => through s outer :=
    List.mem_flatMap.2 ⟨s, hs, hx⟩
  show x ∈ (ofSegments _).segments
  rwa [segments_ofSegments (List.ne_nil_of_mem hmem)]

section Bytes

variable (hi : inner.WellFormed) (ho : outer.WellFormed)
  (hin : inner.TargetsIn ⟨0, outer.parsedLength⟩)
include hi ho hin

/-- A byte of a segment lies in one of its pieces. -/
theorem exists_piece (hs : s ∈ inner.segments) (ha : a ∈ s.parsed) :
    ∃ x ∈ through s outer, a ∈ x.parsed := by
  have htiles := tiles_through ho (hi.parsed_of_mem hs).1 (hi.copied s hs) (hin s hs).2
  obtain ⟨span, hspan, ha⟩ := htiles.exists_mem ha.1 ha.2
  obtain ⟨x, hx, rfl⟩ := List.mem_map.1 hspan
  exact ⟨x, hx, ha⟩

/-- A replaced byte goes where the outer map leads the target of its segment. -/
theorem image_andThen_of_replaced (hs : s ∈ inner.segments) (hlin : s.linear = false)
    (ha : a ∈ s.parsed) :
    (inner.andThen outer).mapStart a =
        (outer.mapRange s.target.start s.target.stop).start ∧
      (inner.andThen outer).mapEnd (a + 1) =
        (outer.mapRange s.target.start s.target.stop).stop := by
  have hc := hi.andThen ho hin
  obtain ⟨x, hx, hax⟩ := exists_piece hi ho hin hs ha
  have hmem := mem_andThen hs hx
  rw [through_of_whole (by simp [hlin])] at hx
  obtain rfl := List.mem_singleton.1 hx
  exact ⟨hc.mapStart_of_mem hmem hax, hc.mapEnd_of_mem hmem hax⟩

/-- A copied byte goes where the two maps lead it one after the other. -/
theorem image_andThen_of_linear (hs : s ∈ inner.segments) (hlin : s.linear = true)
    (ha : a ∈ s.parsed) :
    (inner.andThen outer).mapStart a = outer.mapStart (inner.mapStart a) ∧
      (inner.andThen outer).mapEnd (a + 1) = outer.mapEnd (inner.mapEnd (a + 1)) := by
  have hc := hi.andThen ho hin
  obtain ⟨x, hx, hax⟩ := exists_piece hi ho hin hs ha
  have hmem := mem_andThen hs hx
  have hlen := hi.copied s hs hlin
  rw [hc.mapStart_of_mem hmem hax, hc.mapEnd_of_mem hmem hax, hi.mapStart_of_mem hs ha,
    hi.mapEnd_of_mem hs ha]
  obtain ⟨halo, hahi⟩ := ha
  simp only [Span.length] at hlen
  rw [through_of_linear hlin (by omega)] at hx
  obtain ⟨o, hmo, hx⟩ := List.mem_flatMap.1 hx
  cases shared_of_mem ho hmo hx with
  | deletion hempty hlo hhi =>
    -- A deletion holds no byte.
    obtain ⟨hxlo, hxhi⟩ := hax
    simp only [Segment.replaced] at hxlo hxhi
    omega
  | @bytes lo hi hlt hs hop =>
    obtain ⟨hstart, hstop⟩ := ho.ends_of_inside hmo hlt hop
    obtain ⟨hslo, hshi⟩ := hs
    obtain ⟨holo, hohi⟩ := hop
    obtain ⟨hxlo, hxhi⟩ := hax
    simp only at hslo hshi holo hohi hxlo hxhi
    generalize hk : s.target.start + (a - s.parsed.start) = k
    have hko : k ∈ o.parsed := ⟨by omega, by omega⟩
    have hfirst : (s.image a).start = k := by
      simp only [Segment.image, hlin, if_true, hk]
    have hlast : (s.image a).stop = k + 1 := by
      simp only [Segment.image, hlin, if_true]
      omega
    rw [hfirst, hlast, ho.mapStart_of_mem hmo hko, ho.mapEnd_of_mem hmo hko]
    cases holin : o.linear with
    | true =>
      simp only [Segment.image, holin, if_true, hstart]
      omega
    | false => simp [Segment.image, holin, hstart, hstop]

theorem mapEnd_andThen (hpos : 0 < outer.parsedLength) (hb : 0 < b)
    (hlen : b ≤ inner.parsedLength) :
    (inner.andThen outer).mapEnd b = outer.mapEnd (inner.mapEnd b) := by
  obtain ⟨b, rfl⟩ : ∃ k, b = k + 1 := ⟨b - 1, by omega⟩
  obtain ⟨s, hs, hbs⟩ := hi.exists_segment hlen
  cases hlin : s.linear with
  | true => exact (image_andThen_of_linear hi ho hin hs hlin hbs).2
  | false =>
    rw [(image_andThen_of_replaced hi ho hin hs hlin hbs).2, mapRange_of_pos hpos,
      hi.mapEnd_of_mem hs hbs]
    simp [Segment.image, hlin]

theorem mapStart_andThen_le (hpos : 0 < outer.parsedLength) (ha : a < inner.parsedLength) :
    (inner.andThen outer).mapStart a ≤ outer.mapStart (inner.mapStart a) := by
  obtain ⟨s, hs, has⟩ := hi.exists_segment ha
  cases hlin : s.linear with
  | true => exact Nat.le_of_eq (image_andThen_of_linear hi ho hin hs hlin has).1
  | false =>
    rw [(image_andThen_of_replaced hi ho hin hs hlin has).1, mapRange_of_pos hpos,
      hi.mapStart_of_mem hs has]
    simp only [Segment.image, hlin, Bool.false_eq_true, if_false]
    exact Nat.min_le_left _ _

/-- Unless a byte was put in, nothing the outer map deletes before it is led to as well. -/
theorem mapStart_andThen (hpos : 0 < outer.parsedLength) (ha : a < inner.parsedLength)
    (hne : ∀ s ∈ inner.segments, a ∈ s.parsed → s.target.start < s.target.stop) :
    (inner.andThen outer).mapStart a = outer.mapStart (inner.mapStart a) := by
  obtain ⟨s, hs, has⟩ := hi.exists_segment ha
  cases hlin : s.linear with
  | true => exact (image_andThen_of_linear hi ho hin hs hlin has).1
  | false =>
    have hlt := hne s hs has
    have hle := ho.mapStart_le_mapEnd hlt
    rw [(image_andThen_of_replaced hi ho hin hs hlin has).1, mapRange_of_pos hpos,
      hi.mapStart_of_mem hs has]
    simp only [Segment.image, hlin, Bool.false_eq_true, if_false]
    exact Nat.min_eq_left hle

/-- Where the outer map has no bytes, everything is led to its whole target. -/
theorem mapRange_andThen_of_zero (hzero : outer.parsedLength = 0) (hab : a < b)
    (hb : b ≤ inner.parsedLength) : (inner.andThen outer).mapRange a b = outer.targetSpan := by
  have himage : ∀ i < inner.parsedLength,
      (inner.andThen outer).mapStart i = outer.targetSpan.start ∧
        (inner.andThen outer).mapEnd (i + 1) = outer.targetSpan.stop := by
    intro i hilt
    obtain ⟨s, hs, his⟩ := hi.exists_segment hilt
    have hlin : s.linear = false := by
      -- A copied byte would be a byte of the outer map.
      rw [← Bool.not_eq_true]
      intro hlin
      have hlen := hi.copied s hs hlin
      have hstop := (hin s hs).2
      rw [Span.mem_iff] at his
      simp only [Span.length] at hlen
      simp only at hstop
      omega
    have himage := image_andThen_of_replaced hi ho hin hs hlin his
    rwa [mapRange_of_zero hzero] at himage
  obtain ⟨b, rfl⟩ : ∃ k, b = k + 1 := ⟨b - 1, by omega⟩
  have hup := targetSpan_upright outer
  rw [mapRange_of_pos (by rw [parsedLength_andThen hi ho hin]; omega), (himage a (by omega)).1,
    (himage b (by omega)).2, Nat.min_eq_left hup]

/-- Mapping a range through a composition is mapping it through the two maps in turn: the ends
are the same, and so are the starts unless the range begins with bytes that were put in, where
it may start earlier. -/
theorem mapRange_andThen :
    (inner.andThen outer).parsedLength = inner.parsedLength ∧
      ∀ a b, a < b → b ≤ inner.parsedLength →
        ((inner.andThen outer).mapRange a b).stop =
            (outer.mapRange (inner.mapRange a b).start (inner.mapRange a b).stop).stop ∧
          ((inner.andThen outer).mapRange a b).start ≤
            (outer.mapRange (inner.mapRange a b).start (inner.mapRange a b).stop).start ∧
          ((∀ s ∈ inner.segments, a ∈ s.parsed → s.target.start < s.target.stop) →
            ((inner.andThen outer).mapRange a b).start =
              (outer.mapRange (inner.mapRange a b).start (inner.mapRange a b).stop).start) := by
  have hlen := parsedLength_andThen hi ho hin
  refine ⟨hlen, fun a b hab hb => ?_⟩
  by_cases hpos : 0 < outer.parsedLength
  · have hup := hi.mapStart_le_mapEnd hab
    have hend := mapEnd_andThen hi ho hin hpos (Nat.zero_lt_of_lt hab) hb
    rw [mapRange_of_pos (m := inner.andThen outer) (by omega), mapRange_of_pos hpos,
      mapRange_of_pos (m := inner) (by omega), hend]
    simp only [Nat.min_eq_left hup]
    refine ⟨trivial, ?_, fun hne => ?_⟩
    · have hstart := mapStart_andThen_le hi ho hin hpos (Nat.lt_of_lt_of_le hab hb)
      omega
    · rw [mapStart_andThen hi ho hin hpos (Nat.lt_of_lt_of_le hab hb) hne]
  · have hzero : outer.parsedLength = 0 := by omega
    rw [mapRange_andThen_of_zero hi ho hin hzero hab hb, mapRange_of_zero hzero]
    exact ⟨rfl, Nat.le_refl _, fun _ => rfl⟩

end Bytes

/-- Two bytes put in before what was copied from offset 3 on. -/
def insertion : OffsetMap :=
  ⟨[Segment.replaced ⟨0, 2⟩ ⟨3, 3⟩, Segment.copied ⟨2, 5⟩ 3]⟩

/-- Four bytes cut out at offset 3. -/
def deletion : OffsetMap :=
  ⟨[Segment.copied ⟨0, 3⟩ 0, Segment.replaced ⟨3, 3⟩ ⟨3, 7⟩, Segment.copied ⟨3, 6⟩ 7]⟩

/-- Bytes put in where some were cut out: the start is 3 in one go and 7 in two. -/
theorem mapRange_insertion_at_deletion :
    (insertion.WellFormed ∧ deletion.WellFormed ∧
        insertion.TargetsIn ⟨0, deletion.parsedLength⟩) ∧
      ((insertion.andThen deletion).mapRange 0 4).stop =
          (deletion.mapRange (insertion.mapRange 0 4).start (insertion.mapRange 0 4).stop).stop ∧
        ((insertion.andThen deletion).mapRange 0 4).start ≤
          (deletion.mapRange (insertion.mapRange 0 4).start (insertion.mapRange 0 4).stop).start ∧
        ((insertion.andThen deletion).mapRange 2 4).start =
          (deletion.mapRange (insertion.mapRange 2 4).start (insertion.mapRange 2 4).stop).start ∧
        ((insertion.andThen deletion).mapRange 0 4).start = 3 ∧
        (deletion.mapRange (insertion.mapRange 0 4).start (insertion.mapRange 0 4).stop).start =
          7 := by
  have hi : insertion.WellFormed := by decide
  have ho : deletion.WellFormed := by decide
  have hin : insertion.TargetsIn ⟨0, deletion.parsedLength⟩ := by decide
  have hfront := (mapRange_andThen hi ho hin).2 0 4 (by decide) (by decide)
  have hcopied := (mapRange_andThen hi ho hin).2 2 4 (by decide) (by decide)
  exact ⟨⟨hi, ho, hin⟩, hfront.1, hfront.2.1, hcopied.2.2 (by decide), by decide, by decide⟩

end OffsetMap

end Polyglot
