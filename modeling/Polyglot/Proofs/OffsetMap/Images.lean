import Mathlib.Data.List.TakeWhile
import Polyglot.Proofs.OffsetMap.WellFormed

/-!
# Where a well-formed map leads

`mapStart` and `mapEnd` search the segments. In a well-formed map they find the segment of the
byte behind and of the byte before the offset: `mapStart_of_mem` and `mapEnd_of_mem` say so, and
nothing after them looks at the search again. Both maps are monotone and stay in the target
span, and so is `mapRange`. A segment that holds no byte has no image, so the four lemmas at the
end bound its target by the images of the offsets around it.
-/

set_option autoImplicit false

namespace Polyglot

theorem Segment.image_mono (s : Segment) {i j : Nat} (hij : i ≤ j) :
    (s.image i).start ≤ (s.image j).start ∧ (s.image i).stop ≤ (s.image j).stop := by
  unfold Segment.image
  split
  · simp only
    omega
  · exact ⟨Nat.le_refl _, Nat.le_refl _⟩

namespace OffsetMap

variable {m : OffsetMap} {s t : Segment} {i j k : Nat}

theorem mapEnd_zero (m : OffsetMap) : m.mapEnd 0 = m.targetSpan.start := by
  have hnone : m.segments.takeWhile (fun s => s.parsed.start < 0) = [] := by
    cases m.segments <;> simp
  unfold mapEnd
  rw [hnone]
  rfl

theorem targetSpan_upright (m : OffsetMap) : m.targetSpan.start ≤ m.targetSpan.stop :=
  Nat.le_max_left _ _

theorem mapRange_of_pos (hpos : 0 < m.parsedLength) (i j : Nat) :
    m.mapRange i j = ⟨min (m.mapStart i) (m.mapEnd j), m.mapEnd j⟩ := by
  unfold mapRange
  rw [if_neg (by omega)]

theorem mapRange_of_zero (hzero : m.parsedLength = 0) (i j : Nat) :
    m.mapRange i j = m.targetSpan := by
  unfold mapRange
  rw [if_pos hzero]

theorem mapRange_upright (m : OffsetMap) (i j : Nat) :
    (m.mapRange i j).start ≤ (m.mapRange i j).stop := by
  by_cases hpos : 0 < m.parsedLength
  · rw [mapRange_of_pos hpos]
    exact Nat.min_le_right _ _
  · rw [mapRange_of_zero (by omega)]
    exact targetSpan_upright m

namespace WellFormed

variable (h : m.WellFormed)
include h

/-- The segments around one that is in the map: those before it end where it starts at the
latest, those behind it start where it ends at the earliest. -/
theorem split (hs : s ∈ m.segments) : ∃ pre post, m.segments = pre ++ s :: post ∧
    (∀ t ∈ pre, t.Precedes s ∧ t.parsed.start ≤ t.parsed.stop) ∧ ∀ t ∈ post, s.Precedes t := by
  obtain ⟨pre, post, hsplit⟩ := List.append_of_mem hs
  have hpair := h.precedes
  rw [hsplit, List.pairwise_append, List.pairwise_cons] at hpair
  refine ⟨pre, post, hsplit, ?_, hpair.2.1.1⟩
  intro t ht
  have hmem : t ∈ m.segments := by
    rw [hsplit]
    exact List.mem_append_left _ ht
  exact ⟨hpair.2.2 t ht s List.mem_cons_self, (h.parsed_of_mem hmem).1⟩

theorem mapStart_of_mem (hs : s ∈ m.segments) (hi : i ∈ s.parsed) :
    m.mapStart i = (s.image i).start := by
  obtain ⟨pre, post, hsplit, hpre, -⟩ := h.split hs
  rw [Span.mem_iff] at hi
  have hfind : m.segments.find? (fun s => i < s.parsed.stop) = some s := by
    apply List.find?_eq_some_iff_append.2
    refine ⟨decide_eq_true hi.2, pre, post, hsplit, ?_⟩
    intro t ht
    have := (hpre t ht).1.parsed
    simp only [Bool.not_eq_true', decide_eq_false_iff_not]
    omega
  unfold mapStart Segment.image
  rw [hfind]
  by_cases hlin : s.linear = true <;> simp [hlin]

theorem mapEnd_of_mem (hs : s ∈ m.segments) (hi : i ∈ s.parsed) :
    m.mapEnd (i + 1) = (s.image i).stop := by
  obtain ⟨pre, post, hsplit, hpre, hpost⟩ := h.split hs
  rw [Span.mem_iff] at hi
  have hbefore : ∀ t ∈ pre, decide (t.parsed.start < i + 1) = true := by
    intro t ht
    have := (hpre t ht).1.parsed
    have := (hpre t ht).2
    exact decide_eq_true (by omega)
  have hbehind : post.takeWhile (fun t => t.parsed.start < i + 1) = [] := by
    cases post with
    | nil => rfl
    | cons t post =>
      have := (hpost t List.mem_cons_self).parsed
      exact List.takeWhile_cons_of_neg (by simp only [decide_eq_true_eq]; omega)
  have hfound : (m.segments.takeWhile fun t => t.parsed.start < i + 1).getLast? = some s := by
    rw [hsplit, List.takeWhile_append_of_pos hbefore,
      List.takeWhile_cons_of_pos (by simp only [decide_eq_true_eq]; omega), hbehind]
    exact List.getLast?_concat
  unfold mapEnd Segment.image
  rw [hfound]
  by_cases hlin : s.linear = true
  · simp only [hlin, if_true, Span.length]
    congr 1
    omega
  · simp [hlin]

/-- Past the parsed bytes every start goes to the end of the target span. -/
theorem mapStart_of_le (hi : m.parsedLength ≤ i) : m.mapStart i = m.targetSpan.stop := by
  have hfind : m.segments.find? (fun s => i < s.parsed.stop) = none := by
    apply List.find?_eq_none.2
    intro s hs
    have := (h.parsed_of_mem hs).2
    simp only [decide_eq_true_eq]
    omega
  unfold mapStart
  rw [hfind]

/-- All targets lie in the target span. -/
theorem targetsIn_targetSpan : m.TargetsIn m.targetSpan := by
  intro s hs
  have hfirst : m.targetSpan.start ≤ s.target.start := by
    have hpair := h.ordered
    unfold targetSpan
    cases hm : m.segments with
    | nil => rw [hm] at hs; cases hs
    | cons t rest =>
      rw [hm] at hs hpair
      rcases List.mem_cons.1 hs with rfl | hs
      · exact Nat.le_refl _
      · exact ((List.pairwise_cons.1 hpair).1 s hs).1
  have hlast : s.target.stop ≤ m.targetSpan.stop := by
    have hpair := h.ordered
    cases hm : m.segments.getLast? with
    | none => rw [List.getLast?_eq_none_iff.1 hm] at hs; cases hs
    | some t =>
      obtain ⟨front, hfront⟩ := List.getLast?_eq_some_iff.1 hm
      have hle : t.target.stop ≤ m.targetSpan.stop := by
        unfold targetSpan
        rw [hm]
        exact Nat.le_max_right _ _
      refine Nat.le_trans ?_ hle
      rw [hfront] at hs hpair
      rcases List.mem_append.1 hs with hs | hs
      · exact ((List.pairwise_append.1 hpair).2.2 s hs t List.mem_cons_self).2
      · obtain rfl := List.mem_singleton.1 hs
        exact Nat.le_refl _
  exact ⟨hfirst, hlast⟩

/-- The image of a byte lies in the target span. -/
theorem image_inside_targetSpan (hs : s ∈ m.segments) (hi : i ∈ s.parsed) :
    (s.image i).Inside m.targetSpan := by
  have himage := (h.image_inside hs hi).2
  have htarget := h.targetsIn_targetSpan s hs
  exact ⟨Nat.le_trans htarget.1 himage.1, Nat.le_trans himage.2 htarget.2⟩

/-- The target span ends where the last target does. -/
theorem stop_targetSpan (hs : m.segments.getLast? = some s) :
    m.targetSpan.stop = s.target.stop := by
  have hmem := List.mem_of_getLast? hs
  have hfirst := (h.targetsIn_targetSpan s hmem).1
  have hup := h.upright s hmem
  unfold targetSpan at hfirst ⊢
  simp only [hs, Option.map_some, Option.getD_some] at hfirst ⊢
  omega

/-- Past the parsed bytes every end goes to the end of the target span. -/
theorem mapEnd_of_lt (hi : m.parsedLength < i) : m.mapEnd i = m.targetSpan.stop := by
  have hall : m.segments.takeWhile (fun s => s.parsed.start < i) = m.segments := by
    apply List.takeWhile_eq_self_iff.2
    intro s hs
    apply decide_eq_true
    have := h.parsed_of_mem hs
    omega
  unfold mapEnd
  rw [hall]
  cases hm : m.segments.getLast? with
  | none =>
    rw [List.getLast?_eq_none_iff] at hm
    simp [targetSpan, hm]
  | some s =>
    have hs : s ∈ m.segments := List.mem_of_getLast? hm
    rw [h.stop_targetSpan hm]
    by_cases hlin : s.linear = true
    · have hlen := h.copied s hs hlin
      have := h.upright s hs
      have := h.parsed_of_mem hs
      simp only [Span.length] at hlen
      simp only [hlin, if_true, Span.length]
      omega
    · simp [hlin]

/-- Bytes of one segment start where the image of the first one does and end where that of the
last one does. -/
theorem ends_of_inside (hs : s ∈ m.segments) (hij : i < j) (hin : Span.Inside ⟨i, j⟩ s.parsed) :
    m.mapStart i = (s.image i).start ∧ m.mapEnd j = (s.image (j - 1)).stop := by
  obtain ⟨hi, hj⟩ := hin
  simp only at hi hj
  constructor
  · exact h.mapStart_of_mem hs ⟨hi, by omega⟩
  · have hstop := h.mapEnd_of_mem hs (i := j - 1) ⟨by omega, by omega⟩
    rwa [show j - 1 + 1 = j by omega] at hstop

theorem mapStart_inside (i : Nat) :
    m.targetSpan.start ≤ m.mapStart i ∧ m.mapStart i ≤ m.targetSpan.stop := by
  by_cases hi : i < m.parsedLength
  · obtain ⟨s, hs, his⟩ := h.exists_segment hi
    have hin := h.image_inside_targetSpan hs his
    have hup := (h.image_inside hs his).1
    rw [h.mapStart_of_mem hs his]
    exact ⟨hin.1, Nat.le_trans hup hin.2⟩
  · rw [h.mapStart_of_le (Nat.le_of_not_lt hi)]
    exact ⟨targetSpan_upright m, Nat.le_refl _⟩

theorem mapEnd_inside (i : Nat) :
    m.targetSpan.start ≤ m.mapEnd i ∧ m.mapEnd i ≤ m.targetSpan.stop := by
  cases i with
  | zero =>
    rw [mapEnd_zero]
    exact ⟨Nat.le_refl _, targetSpan_upright m⟩
  | succ i =>
    by_cases hi : i < m.parsedLength
    · obtain ⟨s, hs, his⟩ := h.exists_segment hi
      have hin := h.image_inside_targetSpan hs his
      have hup := (h.image_inside hs his).1
      rw [h.mapEnd_of_mem hs his]
      exact ⟨Nat.le_trans hin.1 hup, hin.2⟩
    · rw [h.mapEnd_of_lt (by omega)]
      exact ⟨targetSpan_upright m, Nat.le_refl _⟩

/-- Of two offsets in order, the segment of the first precedes that of the second or is it. -/
theorem eq_or_precedes_of_le (hs : s ∈ m.segments) (ht : t ∈ m.segments) (hi : i ∈ s.parsed)
    (hj : j ∈ t.parsed) (hij : i ≤ j) : s = t ∨ s.Precedes t := by
  rcases h.eq_or_precedes hs ht with heq | hst | hts
  · exact .inl heq
  · exact .inr hst
  · have := hts.parsed
    rw [Span.mem_iff] at hi hj
    omega

/-- Images come in the order of the bytes. -/
theorem image_mono (hs : s ∈ m.segments) (ht : t ∈ m.segments) (hi : i ∈ s.parsed)
    (hj : j ∈ t.parsed) (hij : i ≤ j) :
    (s.image i).start ≤ (t.image j).start ∧ (s.image i).stop ≤ (t.image j).stop := by
  rcases h.eq_or_precedes_of_le hs ht hi hj hij with rfl | hst
  · exact s.image_mono hij
  · by_cases hlin : s.linear = true ∨ t.linear = true
    · obtain ⟨hiup, hin⟩ := h.image_inside hs hi
      obtain ⟨hjup, hjn⟩ := h.image_inside ht hj
      have := hst.apart hlin
      have := hin.2
      have := hjn.1
      omega
    · -- Between two replacements nothing but the order of the targets is known.
      rw [not_or] at hlin
      simp only [Segment.image, hlin.1, hlin.2]
      exact ⟨hst.start, hst.stop⟩

theorem mapStart_mono (hij : i ≤ j) : m.mapStart i ≤ m.mapStart j := by
  by_cases hj : j < m.parsedLength
  · obtain ⟨s, hs, his⟩ := h.exists_segment (Nat.lt_of_le_of_lt hij hj)
    obtain ⟨t, ht, hjt⟩ := h.exists_segment hj
    rw [h.mapStart_of_mem hs his, h.mapStart_of_mem ht hjt]
    exact (h.image_mono hs ht his hjt hij).1
  · rw [h.mapStart_of_le (Nat.le_of_not_lt hj)]
    exact (h.mapStart_inside i).2

theorem mapEnd_mono (hij : i ≤ j) : m.mapEnd i ≤ m.mapEnd j := by
  cases i with
  | zero =>
    rw [mapEnd_zero]
    exact (h.mapEnd_inside j).1
  | succ i =>
    obtain ⟨j, rfl⟩ : ∃ k, j = k + 1 := ⟨j - 1, by omega⟩
    by_cases hj : j < m.parsedLength
    · obtain ⟨s, hs, his⟩ := h.exists_segment (i := i) (by omega)
      obtain ⟨t, ht, hjt⟩ := h.exists_segment hj
      rw [h.mapEnd_of_mem hs his, h.mapEnd_of_mem ht hjt]
      exact (h.image_mono hs ht his hjt (by omega)).2
    · rw [h.mapEnd_of_lt (i := j + 1) (by omega)]
      exact (h.mapEnd_inside (i + 1)).2

/-- A range that is not empty is not inverted. -/
theorem mapStart_le_mapEnd (hij : i < j) : m.mapStart i ≤ m.mapEnd j := by
  by_cases hi : i < m.parsedLength
  · obtain ⟨s, hs, his⟩ := h.exists_segment hi
    have hup := (h.image_inside hs his).1
    rw [← h.mapStart_of_mem hs his, ← h.mapEnd_of_mem hs his] at hup
    exact Nat.le_trans hup (h.mapEnd_mono hij)
  · rw [h.mapStart_of_le (Nat.le_of_not_lt hi), h.mapEnd_of_lt (by omega)]

/-- What ends before a copied byte is mapped to before its image. -/
theorem mapEnd_le_mapStart (hs : s ∈ m.segments) (hlin : s.linear = true) (hk : k ∈ s.parsed)
    (hik : i ≤ k) : m.mapEnd i ≤ m.mapStart k := by
  cases i with
  | zero =>
    rw [mapEnd_zero]
    exact (h.mapStart_inside k).1
  | succ i =>
    have := hk.2
    have := (h.parsed_of_mem hs).2
    obtain ⟨t, ht, hit⟩ := h.exists_segment (i := i) (by omega)
    rw [h.mapEnd_of_mem ht hit, h.mapStart_of_mem hs hk]
    rcases h.eq_or_precedes_of_le ht hs hit hk (by omega) with rfl | hts
    · rw [Span.mem_iff] at hit
      simp only [Segment.image, hlin, if_true]
      omega
    · have := hts.apart (.inr hlin)
      have := (h.image_inside ht hit).2.2
      have := (h.image_inside hs hk).2.1
      omega

/-- What starts behind a copied byte is mapped to behind its image. -/
theorem mapEnd_succ_le_mapStart (hs : s ∈ m.segments) (hlin : s.linear = true)
    (hk : k ∈ s.parsed) (hkj : k < j) : m.mapEnd (k + 1) ≤ m.mapStart j := by
  by_cases hj : j < m.parsedLength
  · obtain ⟨t, ht, hjt⟩ := h.exists_segment hj
    rw [h.mapEnd_of_mem hs hk, h.mapStart_of_mem ht hjt]
    rcases h.eq_or_precedes_of_le hs ht hk hjt (by omega) with rfl | hst
    · simp only [Segment.image, hlin, if_true]
      omega
    · have := hst.apart (.inl hlin)
      have := (h.image_inside hs hk).2.2
      have := (h.image_inside ht hjt).2.1
      omega
  · rw [h.mapStart_of_le (Nat.le_of_not_lt hj)]
    exact (h.mapEnd_inside (k + 1)).2

/-! ## Ranges -/

theorem mapRange_inside (i j : Nat) : (m.mapRange i j).Inside m.targetSpan := by
  by_cases hpos : 0 < m.parsedLength
  · rw [mapRange_of_pos hpos]
    have hstart := h.mapStart_inside i
    have hstop := h.mapEnd_inside j
    exact ⟨Nat.le_min.2 ⟨hstart.1, hstop.1⟩, hstop.2⟩
  · rw [mapRange_of_zero (by omega)]
    exact ⟨Nat.le_refl _, Nat.le_refl _⟩

/-- A range further on is mapped further on. -/
theorem mapRange_mono {i' j' : Nat} (hi : i ≤ i') (hj : j ≤ j') :
    (m.mapRange i j).start ≤ (m.mapRange i' j').start ∧
      (m.mapRange i j).stop ≤ (m.mapRange i' j').stop := by
  by_cases hpos : 0 < m.parsedLength
  · rw [mapRange_of_pos hpos, mapRange_of_pos hpos]
    have := h.mapStart_mono hi
    have := h.mapEnd_mono hj
    simp only
    omega
  · rw [mapRange_of_zero (by omega), mapRange_of_zero (by omega)]
    exact ⟨Nat.le_refl _, Nat.le_refl _⟩

/-- A range inside another is mapped inside it, unless it is empty: then it may lie before. -/
theorem mapRange_inside_mapRange {i' j' : Nat} (hi : i ≤ i') (hij : i' < j') (hj : j' ≤ j) :
    (m.mapRange i' j').Inside (m.mapRange i j) := by
  by_cases hpos : 0 < m.parsedLength
  · rw [mapRange_of_pos hpos, mapRange_of_pos hpos]
    have hstart := h.mapStart_mono hi
    have hstop := h.mapEnd_mono hj
    have hup := h.mapStart_le_mapEnd (Nat.lt_of_le_of_lt hi hij)
    refine ⟨Nat.le_min.2 ⟨?_, ?_⟩, hstop⟩
    · exact Nat.le_trans (Nat.min_le_left _ _) hstart
    · exact Nat.le_trans (Nat.min_le_left _ _) hup
  · rw [mapRange_of_zero (by omega), mapRange_of_zero (by omega)]
    exact ⟨Nat.le_refl _, Nat.le_refl _⟩

/-- A range that is led to some text is led inside where a range around it is, even when it is
empty itself. -/
theorem mapRange_inside_of_image {i' j' : Nat} (hi : i ≤ i') (hj : j' ≤ j)
    (hlt : (m.mapRange i' j').start < (m.mapRange i' j').stop) :
    (m.mapRange i' j').Inside (m.mapRange i j) := by
  by_cases hpos : 0 < m.parsedLength
  · rw [mapRange_of_pos hpos] at hlt ⊢
    rw [mapRange_of_pos hpos]
    have hstart := h.mapStart_mono hi
    have hstop := h.mapEnd_mono hj
    simp only at hlt
    refine ⟨?_, hstop⟩
    simp only
    omega
  · rw [mapRange_of_zero (by omega), mapRange_of_zero (by omega)]
    exact ⟨Nat.le_refl _, Nat.le_refl _⟩

/-- In a linear segment a range is led over one to one. -/
theorem mapRange_of_linear (hs : s ∈ m.segments) (hlin : s.linear = true)
    (hi : s.parsed.start ≤ i) (hij : i < j) (hj : j ≤ s.parsed.stop) :
    m.mapRange i j = ⟨m.mapStart i, m.mapStart i + (j - i)⟩ := by
  have hlen := (h.parsed_of_mem hs).2
  obtain ⟨hstart, hstop⟩ := h.ends_of_inside hs hij ⟨hi, hj⟩
  simp only [Segment.image, hlin, if_true] at hstart hstop
  rw [mapRange_of_pos (by omega), hstart, hstop]
  simp only [Span.mk.injEq]
  omega

/-- An empty range at a linear segment that holds a byte has an empty image. -/
theorem mapRange_of_linear_of_le (hs : s ∈ m.segments) (hlin : s.linear = true)
    (hlt : s.parsed.start < s.parsed.stop) (hi : s.parsed.start ≤ i) (hj : j ≤ s.parsed.stop)
    (hji : j ≤ i) : (m.mapRange i j).stop ≤ (m.mapRange i j).start := by
  have hlen := (h.parsed_of_mem hs).2
  rw [mapRange_of_pos (by omega)]
  apply Nat.le_min.2
  refine ⟨?_, Nat.le_refl _⟩
  by_cases hin : i < s.parsed.stop
  · exact h.mapEnd_le_mapStart hs hlin ⟨hi, hin⟩ hji
  · -- Behind the segment its last byte is the nearest one that was copied.
    have hlast := h.mapEnd_succ_le_mapStart hs hlin (k := s.parsed.stop - 1) (j := i)
      ⟨by omega, by omega⟩ (by omega)
    have hmono := h.mapEnd_mono (i := j) (j := s.parsed.stop - 1 + 1) (by omega)
    exact Nat.le_trans hmono hlast

/-! ## Bounds for a target that may have no bytes in front of it -/

theorem mapStart_le_target (hs : s ∈ m.segments) (hi : i < s.parsed.start) :
    m.mapStart i ≤ s.target.start := by
  have hp := h.parsed_of_mem hs
  obtain ⟨t, ht, hit⟩ := h.exists_segment (i := i) (by omega)
  have himage := h.image_inside ht hit
  rw [h.mapStart_of_mem ht hit]
  rw [Span.mem_iff] at hit
  rcases h.eq_or_precedes ht hs with rfl | hts | hst
  · omega
  · by_cases hlin : t.linear = true
    · have := hts.apart (.inl hlin)
      have := himage.2.2
      omega
    · simp only [Segment.image, hlin]
      exact hts.start
  · have := hst.parsed
    omega

theorem target_le_mapStart (hs : s ∈ m.segments) (hi : s.parsed.stop ≤ i) :
    s.target.start ≤ m.mapStart i := by
  by_cases hlt : i < m.parsedLength
  · have hp := h.parsed_of_mem hs
    obtain ⟨t, ht, hit⟩ := h.exists_segment hlt
    have := (h.image_inside ht hit).2.1
    rw [h.mapStart_of_mem ht hit]
    rw [Span.mem_iff] at hit
    rcases h.eq_or_precedes hs ht with rfl | hst | hts
    · omega
    · have := hst.start
      omega
    · have := hts.parsed
      omega
  · rw [h.mapStart_of_le (Nat.le_of_not_lt hlt)]
    exact Nat.le_trans (h.upright s hs) (h.targetsIn_targetSpan s hs).2

theorem mapEnd_le_target (hs : s ∈ m.segments) (hi : i ≤ s.parsed.start) :
    m.mapEnd i ≤ s.target.stop := by
  cases i with
  | zero =>
    rw [mapEnd_zero]
    exact Nat.le_trans (h.targetsIn_targetSpan s hs).1 (h.upright s hs)
  | succ i =>
    have hp := h.parsed_of_mem hs
    obtain ⟨t, ht, hit⟩ := h.exists_segment (i := i) (by omega)
    have := (h.image_inside ht hit).2.2
    rw [h.mapEnd_of_mem ht hit]
    rw [Span.mem_iff] at hit
    rcases h.eq_or_precedes ht hs with rfl | hts | hst
    · omega
    · have := hts.stop
      omega
    · have := hst.parsed
      omega

theorem target_le_mapEnd (hs : s ∈ m.segments) (hi : s.parsed.stop < i) :
    s.target.stop ≤ m.mapEnd i := by
  obtain ⟨i, rfl⟩ : ∃ k, i = k + 1 := ⟨i - 1, by omega⟩
  by_cases hlt : i < m.parsedLength
  · have hp := h.parsed_of_mem hs
    obtain ⟨t, ht, hit⟩ := h.exists_segment hlt
    have himage := h.image_inside ht hit
    rw [h.mapEnd_of_mem ht hit]
    rw [Span.mem_iff] at hit
    rcases h.eq_or_precedes hs ht with rfl | hst | hts
    · omega
    · by_cases hlin : t.linear = true
      · have := hst.apart (.inr hlin)
        have := himage.2.1
        omega
      · simp only [Segment.image, hlin]
        exact hst.stop
    · have := hts.parsed
      omega
  · rw [h.mapEnd_of_lt (i := i + 1) (by omega)]
    exact (h.targetsIn_targetSpan s hs).2

end WellFormed

end OffsetMap

end Polyglot
