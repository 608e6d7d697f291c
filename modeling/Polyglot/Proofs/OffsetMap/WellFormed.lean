import Polyglot.OffsetMap

/-!
# Well-formed offset maps

A map is well-formed when its segments tile the parsed bytes from zero on, the targets come in
order, and copied bytes are accounted for: a linear segment is as long as its target and shares
no byte with any other target. Targets of replacements may repeat and nest, so a target need
not start where the one before it ends. `WellFormed.precedes` gathers what holds between any
two segments, and `eq_or_precedes` compares two segments that are merely both in the map.
-/

set_option autoImplicit false

namespace Polyglot

namespace Span

/-- The offsets of a span are its elements. -/
instance : Membership Nat Span := ⟨fun s i => s.start ≤ i ∧ i < s.stop⟩

theorem mem_iff {s : Span} {i : Nat} : i ∈ s ↔ s.start ≤ i ∧ i < s.stop := Iff.rfl

/-- The ends of the span lie between those of the other. -/
def Inside (s outer : Span) : Prop :=
  outer.start ≤ s.start ∧ s.stop ≤ outer.stop

/-- Some offset lies in both spans. -/
def Overlaps (s t : Span) : Prop :=
  ∃ i, i ∈ s ∧ i ∈ t

/-- The spans lie end to end from `start` to `stop`. -/
def Tiles : Nat → Nat → List Span → Prop
  | start, stop, [] => start = stop
  | start, stop, s :: rest => s.start = start ∧ s.start ≤ s.stop ∧ Tiles s.stop stop rest

instance (s : Span) (i : Nat) : Decidable (i ∈ s) := inferInstanceAs (Decidable (_ ∧ _))

instance (s outer : Span) : Decidable (s.Inside outer) := inferInstanceAs (Decidable (_ ∧ _))

theorem overlaps_iff {s t : Span} :
    s.Overlaps t ↔ max s.start t.start < min s.stop t.stop := by
  constructor
  · rintro ⟨i, hs, ht⟩
    rw [mem_iff] at hs ht
    omega
  · intro h
    refine ⟨max s.start t.start, ?_, ?_⟩ <;> rw [mem_iff] <;> omega

instance (s t : Span) : Decidable (s.Overlaps t) := decidable_of_iff _ overlaps_iff.symm

/-- Whether spans lie end to end can be read off from the front. -/
instance decidableTiles : (start stop : Nat) → (l : List Span) → Decidable (Tiles start stop l)
  | start, stop, [] => inferInstanceAs (Decidable (start = stop))
  | start, stop, s :: rest =>
    have := decidableTiles s.stop stop rest
    inferInstanceAs (Decidable (s.start = start ∧ s.start ≤ s.stop ∧ Tiles s.stop stop rest))

theorem Tiles.append {start middle stop : Nat} {l r : List Span} (hl : Tiles start middle l)
    (hr : Tiles middle stop r) : Tiles start stop (l ++ r) := by
  induction l generalizing start with
  | nil =>
    obtain rfl : start = middle := hl
    exact hr
  | cons s l ih => exact ⟨hl.1, hl.2.1, ih hl.2.2⟩

theorem Tiles.le {start stop : Nat} {l : List Span} (h : Tiles start stop l) : start ≤ stop := by
  induction l generalizing start with
  | nil => exact Nat.le_of_eq h
  | cons s l ih =>
    have := ih h.2.2
    have := h.1
    have := h.2.1
    omega

/-- A tile is upright and lies between the ends. -/
theorem Tiles.of_mem {start stop : Nat} {l : List Span} (h : Tiles start stop l) {s : Span}
    (hs : s ∈ l) : start ≤ s.start ∧ s.start ≤ s.stop ∧ s.stop ≤ stop := by
  induction l generalizing start with
  | nil => cases hs
  | cons t l ih =>
    obtain ⟨hst, hup, hrest⟩ := h
    rcases List.mem_cons.1 hs with rfl | hs
    · exact ⟨Nat.le_of_eq hst.symm, hup, hrest.le⟩
    · have := ih hrest hs
      omega

theorem Tiles.pairwise {start stop : Nat} {l : List Span} (h : Tiles start stop l) :
    l.Pairwise fun s t => s.stop ≤ t.start := by
  induction l generalizing start with
  | nil => exact List.Pairwise.nil
  | cons s l ih =>
    apply List.pairwise_cons.2
    constructor
    · intro t ht
      exact (h.2.2.of_mem ht).1
    · exact ih h.2.2

/-- Every offset between the ends lies in some tile. -/
theorem Tiles.exists_mem {start stop : Nat} {l : List Span} (h : Tiles start stop l) {i : Nat}
    (hi : start ≤ i) (hi' : i < stop) : ∃ s ∈ l, i ∈ s := by
  induction l generalizing start with
  | nil =>
    obtain rfl : start = stop := h
    omega
  | cons s l ih =>
    obtain ⟨hst, hup, hrest⟩ := h
    by_cases hlt : i < s.stop
    · exact ⟨s, List.mem_cons_self, by rw [mem_iff]; omega⟩
    · obtain ⟨t, ht, hit⟩ := ih hrest (by omega)
      exact ⟨t, List.mem_cons_of_mem s ht, hit⟩

/-- Where the last tile ends, the tiling ends. -/
theorem Tiles.stop_of_getLast? {start stop : Nat} {l : List Span} (h : Tiles start stop l)
    {s : Span} (hs : l.getLast? = some s) : s.stop = stop := by
  induction l generalizing start with
  | nil => cases hs
  | cons t l ih =>
    cases l with
    | nil =>
      obtain rfl : t = s := by simpa using hs
      exact h.2.2
    | cons u l => exact ih h.2.2 (by simpa using hs)

end Span

namespace Segment

/-- What byte `i` of the segment came from: one byte if it was copied, else the whole target. -/
def image (s : Segment) (i : Nat) : Span :=
  if s.linear then
    ⟨s.target.start + (i - s.parsed.start), s.target.start + (i + 1 - s.parsed.start)⟩
  else s.target

/-- What the order of two segments in a map says of them. -/
structure Precedes (s t : Segment) : Prop where
  parsed : s.parsed.stop ≤ t.parsed.start
  start : s.target.start ≤ t.target.start
  stop : s.target.stop ≤ t.target.stop
  apart : s.linear = true ∨ t.linear = true → s.target.stop ≤ t.target.start

end Segment

namespace OffsetMap

variable {m : OffsetMap} {s t : Segment}

/-- All targets lie in a span. -/
def TargetsIn (m : OffsetMap) (span : Span) : Prop :=
  ∀ s ∈ m.segments, s.target.Inside span

instance (m : OffsetMap) (span : Span) : Decidable (m.TargetsIn span) :=
  inferInstanceAs (Decidable (∀ s ∈ m.segments, s.target.Inside span))

/-- The parsed bytes are tiled, the targets come in order, and what was copied was copied at
full length and once. -/
structure WellFormed (m : OffsetMap) : Prop where
  tiles : Span.Tiles 0 m.parsedLength (m.segments.map (·.parsed))
  upright : ∀ s ∈ m.segments, s.target.start ≤ s.target.stop
  ordered : m.segments.Pairwise fun s t =>
    s.target.start ≤ t.target.start ∧ s.target.stop ≤ t.target.stop
  copied : ∀ s ∈ m.segments, s.linear = true → s.target.length = s.parsed.length
  apart : m.segments.Pairwise fun s t =>
    s.linear = true ∨ t.linear = true → ¬ s.target.Overlaps t.target

instance (m : OffsetMap) : Decidable m.WellFormed :=
  decidable_of_iff
    (Span.Tiles 0 m.parsedLength (m.segments.map (·.parsed)) ∧
      (∀ s ∈ m.segments, s.target.start ≤ s.target.stop) ∧
      (m.segments.Pairwise fun s t =>
        s.target.start ≤ t.target.start ∧ s.target.stop ≤ t.target.stop) ∧
      (∀ s ∈ m.segments, s.linear = true → s.target.length = s.parsed.length) ∧
      m.segments.Pairwise fun s t =>
        s.linear = true ∨ t.linear = true → ¬ s.target.Overlaps t.target)
    ⟨fun ⟨a, b, c, d, e⟩ => ⟨a, b, c, d, e⟩, fun ⟨a, b, c, d, e⟩ => ⟨a, b, c, d, e⟩⟩

/-- The fields of well-formedness from what holds between any two segments. -/
theorem WellFormed.of_pairwise (tiles : Span.Tiles 0 m.parsedLength (m.segments.map (·.parsed)))
    (upright : ∀ s ∈ m.segments, s.target.start ≤ s.target.stop)
    (copied : ∀ s ∈ m.segments, s.linear = true → s.target.length = s.parsed.length)
    (pairwise : m.segments.Pairwise Segment.Precedes) : m.WellFormed := by
  refine ⟨tiles, upright, pairwise.imp fun h => ⟨h.start, h.stop⟩, copied, pairwise.imp ?_⟩
  intro s t h hlin hover
  have := h.apart hlin
  rw [Span.overlaps_iff] at hover
  omega

/-- The map of segments that tile `n` bytes has those segments, or it is the empty map. -/
theorem tiles_ofSegments {segments : List Segment} {n : Nat}
    (h : Span.Tiles 0 n (segments.map (·.parsed))) :
    (ofSegments segments).parsedLength = n ∧
      Span.Tiles 0 n ((ofSegments segments).segments.map (·.parsed)) := by
  cases segments with
  | nil =>
    obtain rfl : 0 = n := h
    exact ⟨rfl, rfl, Nat.le_refl 0, rfl⟩
  | cons s rest =>
    refine ⟨?_, h⟩
    cases hlast : (s :: rest).getLast? with
    | none => cases List.getLast?_eq_none_iff.1 hlast
    | some t =>
      have hstop := h.stop_of_getLast? (by rw [List.getLast?_map, hlast]; rfl)
      unfold ofSegments parsedLength
      simp only [List.isEmpty_cons, Bool.false_eq_true, if_false, hlast]
      exact hstop

/-- Segments that are fit for a map give a well-formed one. -/
theorem WellFormed.ofSegments {segments : List Segment} {n : Nat}
    (tiles : Span.Tiles 0 n (segments.map (·.parsed)))
    (upright : ∀ s ∈ segments, s.target.start ≤ s.target.stop)
    (copied : ∀ s ∈ segments, s.linear = true → s.target.length = s.parsed.length)
    (pairwise : segments.Pairwise Segment.Precedes) : (ofSegments segments).WellFormed := by
  obtain ⟨hlen, htiles⟩ := tiles_ofSegments tiles
  rw [← hlen] at htiles
  cases segments with
  | nil => decide
  | cons s rest => exact WellFormed.of_pairwise htiles upright copied pairwise

/-- Segments whose targets lie end to end as their bytes do are in order. -/
theorem pairwise_of_tiles {segments : List Segment} {start stop start' stop' : Nat}
    (parsed : Span.Tiles start stop (segments.map (·.parsed)))
    (target : Span.Tiles start' stop' (segments.map (·.target))) :
    segments.Pairwise Segment.Precedes := by
  have hparsed := List.pairwise_map.1 parsed.pairwise
  have htarget := List.pairwise_map.1 target.pairwise
  apply (hparsed.and htarget).imp_of_mem
  rintro s t hs ht ⟨hp, ht'⟩
  have hs := target.of_mem (List.mem_map.2 ⟨s, hs, rfl⟩)
  have ht := target.of_mem (List.mem_map.2 ⟨t, ht, rfl⟩)
  exact ⟨hp, by omega, by omega, fun _ => ht'⟩

theorem ofSegments_ne_nil (segments : List Segment) : (ofSegments segments).segments ≠ [] := by
  cases segments <;> simp [ofSegments, identity, shifted]

/-- A map of some segments has just these. -/
theorem segments_ofSegments {segments : List Segment} (h : segments ≠ []) :
    (ofSegments segments).segments = segments := by
  unfold ofSegments
  rw [if_neg (by simpa using h)]

theorem targetsIn_ofSegments {segments : List Segment} {span : Span} (hzero : span.start = 0)
    (h : ∀ s ∈ segments, s.target.Inside span) : (ofSegments segments).TargetsIn span := by
  cases segments with
  | nil =>
    intro s hs
    obtain rfl := List.mem_singleton.1 hs
    exact ⟨Nat.le_of_eq hzero, Nat.zero_le _⟩
  | cons s rest => exact h

/-! ## Moving the targets -/

theorem parsedLength_shiftTargets (m : OffsetMap) (base : Nat) :
    (m.shiftTargets base).parsedLength = m.parsedLength := by
  simp [shiftTargets, parsedLength, List.getLast?_map, Function.comp_def]

theorem mem_shiftTargets {base : Nat} :
    s ∈ (m.shiftTargets base).segments ↔
      ∃ t ∈ m.segments, { t with target := t.target.shift base } = s :=
  List.mem_map

theorem shiftTargets_ne_nil (h : m.segments ≠ []) (base : Nat) :
    (m.shiftTargets base).segments ≠ [] := by
  intro hnil
  exact h (List.map_eq_nil_iff.1 hnil)

theorem WellFormed.shiftTargets (h : m.WellFormed) (base : Nat) :
    (m.shiftTargets base).WellFormed := by
  constructor
  · rw [parsedLength_shiftTargets]
    have htiles := h.tiles
    simpa [OffsetMap.shiftTargets, Function.comp_def] using htiles
  · intro s hs
    obtain ⟨t, ht, rfl⟩ := mem_shiftTargets.1 hs
    have := h.upright t ht
    simp only [Span.shift]
    omega
  · apply List.pairwise_map.2
    apply h.ordered.imp
    intro s t hst
    simp only [Span.shift]
    omega
  · intro s hs hlin
    obtain ⟨t, ht, rfl⟩ := mem_shiftTargets.1 hs
    have := h.copied t ht hlin
    simp only [Span.shift, Span.length] at this ⊢
    omega
  · apply List.pairwise_map.2
    apply h.apart.imp
    intro s t hst hlin
    have := hst hlin
    rw [Span.overlaps_iff] at this ⊢
    simp only [Span.shift]
    omega

/-- A slice's map, moved to where the slice stands, leads into the slice. -/
theorem TargetsIn.shiftTargets {length : Nat} (h : m.TargetsIn ⟨0, length⟩) (base : Nat) :
    (m.shiftTargets base).TargetsIn ⟨base, base + length⟩ := by
  intro s hs
  obtain ⟨t, ht, rfl⟩ := mem_shiftTargets.1 hs
  have hstop := (h t ht).2
  refine ⟨Nat.le_add_left _ _, ?_⟩
  simp only [Span.shift] at hstop ⊢
  omega

namespace WellFormed

variable (h : m.WellFormed)
include h

/-- Targets in order that share no byte do not reach into each other, even when one is empty. -/
theorem precedes : m.segments.Pairwise Segment.Precedes := by
  have htiles := List.pairwise_map.1 h.tiles.pairwise
  apply (htiles.and (h.ordered.and h.apart)).imp_of_mem
  rintro s t hs ht ⟨hp, ⟨hstart, hstop⟩, hapart⟩
  refine ⟨hp, hstart, hstop, fun hlin => ?_⟩
  have hover := hapart hlin
  have := h.upright s hs
  have := h.upright t ht
  rw [Span.overlaps_iff] at hover
  omega

theorem eq_or_precedes (hs : s ∈ m.segments) (ht : t ∈ m.segments) :
    s = t ∨ s.Precedes t ∨ t.Precedes s := by
  obtain ⟨pre, post, hsplit⟩ := List.append_of_mem hs
  have hpair := h.precedes
  rw [hsplit, List.pairwise_append, List.pairwise_cons] at hpair
  rw [hsplit, List.mem_append, List.mem_cons] at ht
  rcases ht with ht | rfl | ht
  · exact .inr (.inr (hpair.2.2 t ht s List.mem_cons_self))
  · exact .inl rfl
  · exact .inr (.inl (hpair.2.1.1 t ht))

theorem parsed_of_mem (hs : s ∈ m.segments) :
    s.parsed.start ≤ s.parsed.stop ∧ s.parsed.stop ≤ m.parsedLength :=
  (h.tiles.of_mem (List.mem_map.2 ⟨s, hs, rfl⟩)).2

/-- Every parsed byte lies in a segment. -/
theorem exists_segment {i : Nat} (hi : i < m.parsedLength) : ∃ s ∈ m.segments, i ∈ s.parsed := by
  obtain ⟨span, hspan, hi⟩ := h.tiles.exists_mem (Nat.zero_le i) hi
  obtain ⟨s, hs, rfl⟩ := List.mem_map.1 hspan
  exact ⟨s, hs, hi⟩

/-- The image of a byte lies in the target of its segment. -/
theorem image_inside (hs : s ∈ m.segments) {i : Nat} (hi : i ∈ s.parsed) :
    (s.image i).start ≤ (s.image i).stop ∧ (s.image i).Inside s.target := by
  have hup := h.upright s hs
  have hlen := h.copied s hs
  rw [Span.mem_iff] at hi
  unfold Segment.image Span.Inside
  split
  · have := hlen ‹_›
    simp only [Span.length] at this
    simp only
    omega
  · exact ⟨hup, Nat.le_refl _, Nat.le_refl _⟩

/-- The target span reaches no further than the targets. -/
theorem targetSpan_inside (hne : m.segments ≠ []) {span : Span} (hin : m.TargetsIn span) :
    m.targetSpan.Inside span := by
  have hfirst := hin _ (List.head_mem hne)
  have hlast := hin _ (List.getLast_mem hne)
  have hup := h.upright _ (List.head_mem hne)
  unfold targetSpan
  rw [List.head?_eq_some_head hne, List.getLast?_eq_some_getLast hne]
  simp only [Option.map_some, Option.getD_some]
  exact ⟨hfirst.1, Nat.max_le.2 ⟨Nat.le_trans hup hfirst.2, hlast.2⟩⟩

/-- A map into a buffer reaches no further than the buffer, even without segments. -/
theorem stop_targetSpan_le {n : Nat} (hn : m.TargetsIn ⟨0, n⟩) : m.targetSpan.stop ≤ n := by
  by_cases hne : m.segments = []
  · simp [targetSpan, hne]
  · exact (h.targetSpan_inside hne hn).2

end WellFormed

end OffsetMap

end Polyglot
