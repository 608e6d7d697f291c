import Polyglot.Proofs.OffsetMap.Images

/-!
# The pieces of a composition

`andThen` cuts the copied segments of the inner map at the borders of the outer one and leads
the others on as a whole. `Shared` lists what a cut can give and `Between` bounds the target of
every piece by where the outer map leads the ends of the segment it came from. The pieces tile
what they were cut from, and they come in order, also across segments.
-/

set_option autoImplicit false

namespace Polyglot

namespace OffsetMap

variable {inner outer : OffsetMap} {s t o x y : Segment}

theorem through_of_whole (h : s.linear = true → s.target.stop ≤ s.target.start) :
    through s outer =
      [Segment.replaced s.parsed (outer.mapRange s.target.start s.target.stop)] := by
  unfold through
  rw [if_pos]
  cases hlin : s.linear with
  | false => rfl
  | true => simpa [Span.isEmpty] using h hlin

theorem through_of_linear (hlin : s.linear = true) (hlt : s.target.start < s.target.stop) :
    through s outer = outer.segments.flatMap (sharedPart s) := by
  unfold through
  rw [if_neg]
  simp only [hlin, Span.isEmpty, Bool.not_true, Bool.false_or, decide_eq_true_eq]
  omega

/-- What one segment of the outer map gives for a copied segment: a deletion strictly inside it,
or the bytes that the two have in common. -/
inductive Shared (s o : Segment) (outer : OffsetMap) : Segment → Prop where
  | deletion (hempty : o.parsed.stop ≤ o.parsed.start) (hlo : s.target.start < o.parsed.start)
      (hhi : o.parsed.start < s.target.stop) :
      Shared s o outer (Segment.replaced
        ⟨s.parsed.start + (o.parsed.start - s.target.start),
          s.parsed.start + (o.parsed.start - s.target.start)⟩ o.target)
  | bytes {lo hi : Nat} (hlt : lo < hi) (hs : Span.Inside ⟨lo, hi⟩ s.target)
      (ho : Span.Inside ⟨lo, hi⟩ o.parsed) :
      Shared s o outer
        ⟨⟨s.parsed.start + (lo - s.target.start), s.parsed.start + (hi - s.target.start)⟩,
          ⟨outer.mapStart lo, outer.mapEnd hi⟩, o.linear⟩

theorem shared_of_mem (h : outer.WellFormed) (ho : o ∈ outer.segments)
    (hx : x ∈ sharedPart s o) : Shared s o outer x := by
  unfold sharedPart at hx
  split at hx
  · next hempty =>
    simp only [Span.isEmpty, decide_eq_true_eq] at hempty
    split at hx
    · next hin =>
      obtain rfl := List.mem_singleton.1 hx
      exact .deletion hempty hin.1 hin.2
    · cases hx
  · next hempty =>
    simp only at hx
    split at hx
    · cases hx
    · next hlt =>
      -- The common bytes run from the later start to the earlier stop.
      generalize hlo : max o.parsed.start s.target.start = lo at hx hlt
      generalize hhi : min o.parsed.stop s.target.stop = hi at hx hlt
      have hs : Span.Inside ⟨lo, hi⟩ s.target := ⟨by simp only; omega, by simp only; omega⟩
      have hin : Span.Inside ⟨lo, hi⟩ o.parsed := ⟨by simp only; omega, by simp only; omega⟩
      obtain ⟨hstart, hstop⟩ := h.ends_of_inside ho (Nat.lt_of_not_le hlt) hin
      have heq : x = ⟨⟨s.parsed.start + (lo - s.target.start),
          s.parsed.start + (hi - s.target.start)⟩,
          ⟨outer.mapStart lo, outer.mapEnd hi⟩, o.linear⟩ := by
        rw [hstart, hstop]
        cases hlin : o.linear with
        | true =>
          rw [if_pos hlin] at hx
          rw [List.mem_singleton.1 hx]
          simp only [Segment.copied, Segment.image, hlin, Span.length, if_true, Segment.mk.injEq,
            Span.mk.injEq, true_and, and_true]
          omega
        | false =>
          rw [hlin] at hx
          rw [List.mem_singleton.1 hx]
          simp [Segment.replaced, Segment.image, hlin]
      rw [heq]
      exact .bytes (Nat.lt_of_not_le hlt) hs hin

/-- What a segment is led on to: all of it to one target, unless it was copied from some bytes;
then it is what those bytes share with the segments of the outer map. -/
inductive Piece (s : Segment) (outer : OffsetMap) : Segment → Prop where
  | whole (hwhole : s.linear = true → s.target.stop ≤ s.target.start) :
      Piece s outer
        (Segment.replaced s.parsed (outer.mapRange s.target.start s.target.stop))
  | shared {o x : Segment} (hlin : s.linear = true) (hlt : s.target.start < s.target.stop)
      (ho : o ∈ outer.segments) (hx : Shared s o outer x) : Piece s outer x

theorem piece_of_mem (h : outer.WellFormed) (hx : x ∈ through s outer) : Piece s outer x := by
  by_cases hwhole : s.linear = true → s.target.stop ≤ s.target.start
  · rw [through_of_whole hwhole] at hx
    rw [List.mem_singleton.1 hx]
    exact .whole hwhole
  · obtain ⟨hlin, hlt⟩ := Classical.not_imp.1 hwhole
    rw [through_of_linear hlin (Nat.lt_of_not_le hlt)] at hx
    obtain ⟨o, ho, hx⟩ := List.mem_flatMap.1 hx
    exact .shared hlin (Nat.lt_of_not_le hlt) ho (shared_of_mem h ho hx)

/-! ## The order of the pieces -/

/-- The target of a piece lies between what the outer map gives for two offsets; that of a
copied piece does so strictly, without the deletions that may lie at either offset. -/
structure Between (outer : OffsetMap) (lo hi : Nat) (x : Segment) : Prop where
  upright : x.target.start ≤ x.target.stop
  lo_start : min (outer.mapStart lo) (outer.mapEnd lo) ≤ x.target.start
  lo_stop : outer.mapEnd lo ≤ x.target.stop
  start_hi : x.target.start ≤ outer.mapStart hi
  stop_hi : x.target.stop ≤ outer.mapEnd hi
  lo_copied : x.linear = true → outer.mapEnd lo ≤ x.target.start
  copied_hi : x.linear = true → x.target.stop ≤ outer.mapStart hi

theorem between_whole (h : outer.WellFormed) (hpos : 0 < outer.parsedLength) (span : Span)
    {lo hi : Nat} (hle : lo ≤ hi) :
    Between outer lo hi (Segment.replaced span (outer.mapRange lo hi)) := by
  have hstart := h.mapStart_mono hle
  have hstop := h.mapEnd_mono hle
  rw [mapRange_of_pos hpos]
  constructor <;> simp only [Segment.replaced, Bool.false_eq_true, false_imp_iff] <;> omega

theorem Shared.between (h : outer.WellFormed) (ho : o ∈ outer.segments)
    (hx : Shared s o outer x) : Between outer s.target.start s.target.stop x := by
  cases hx with
  | deletion hempty hlo hhi =>
    have hup := h.upright o ho
    have h₁ := h.mapStart_le_target ho hlo
    have h₂ := h.mapEnd_le_target ho (Nat.le_of_lt hlo)
    have h₃ := h.target_le_mapStart ho (i := s.target.stop) (by omega)
    have h₄ := h.target_le_mapEnd ho (i := s.target.stop) (by omega)
    constructor <;> simp only [Segment.replaced, Bool.false_eq_true, false_imp_iff] <;> omega
  | @bytes lo hi hlt hs hop =>
    obtain ⟨hslo, hshi⟩ := hs
    obtain ⟨holo, hohi⟩ := hop
    simp only at hslo hshi holo hohi
    have hup := h.mapStart_le_mapEnd hlt
    have h₁ := h.mapStart_mono hslo
    have h₂ := h.mapEnd_mono (i := s.target.start) (j := hi) (by omega)
    have h₃ := h.mapStart_mono (i := lo) (j := s.target.stop) (by omega)
    have h₄ := h.mapEnd_mono hshi
    refine ⟨hup, by simp only; omega, h₂, h₃, h₄, ?_, ?_⟩
    · intro hlin
      exact h.mapEnd_le_mapStart ho hlin ⟨holo, by omega⟩ hslo
    · intro hlin
      have hcopied := h.mapEnd_succ_le_mapStart ho hlin (k := hi - 1) (j := s.target.stop)
        ⟨by omega, by omega⟩ (by omega)
      rwa [show hi - 1 + 1 = hi by omega] at hcopied

/-- Pieces on two sides of an offset are in order. -/
theorem Between.precedes (h : outer.WellFormed) {lo hi lo' hi' : Nat}
    (hx : Between outer lo hi x) (hy : Between outer lo' hi' y) (hle : hi ≤ lo')
    (hparsed : x.parsed.stop ≤ y.parsed.start) : x.Precedes y := by
  have hstart := h.mapStart_mono hle
  have hstop := h.mapEnd_mono hle
  have := hx.upright
  have := hx.start_hi
  have := hx.stop_hi
  have := hy.lo_start
  have := hy.lo_stop
  refine ⟨hparsed, by omega, by omega, ?_⟩
  rintro (hlin | hlin)
  · have := hx.copied_hi hlin
    omega
  · have := hy.lo_copied hlin
    omega

/-- The target of a cut is part of the target it was cut from, all of it for a replacement. -/
theorem Shared.narrows (h : outer.WellFormed) (ho : o ∈ outer.segments)
    (hx : Shared s o outer x) : x.target.start ≤ x.target.stop ∧ x.target.Inside o.target ∧
      (x.linear = true → o.linear = true) ∧ (x.linear = false → x.target = o.target) := by
  cases hx with
  | deletion hempty hlo hhi =>
    exact ⟨h.upright o ho, ⟨Nat.le_refl _, Nat.le_refl _⟩, nofun, fun _ => rfl⟩
  | @bytes lo hi hlt hs hop =>
    obtain ⟨hstart, hstop⟩ := h.ends_of_inside ho hlt hop
    obtain ⟨holo, hohi⟩ := hop
    simp only at holo hohi
    have hup := h.mapStart_le_mapEnd hlt
    have hfirst : lo ∈ o.parsed := ⟨holo, by omega⟩
    have hlast : hi - 1 ∈ o.parsed := ⟨by omega, by omega⟩
    simp only
    refine ⟨hup, ⟨?_, ?_⟩, id, ?_⟩
    · rw [hstart]
      exact (h.image_inside ho hfirst).2.1
    · rw [hstop]
      exact (h.image_inside ho hlast).2.2
    · intro hlin
      rw [hstart, hstop]
      simp [Segment.image, hlin]

/-- A copied cut is as long as its target. -/
theorem Shared.copied (h : outer.WellFormed) (ho : o ∈ outer.segments)
    (hx : Shared s o outer x) (hlin : x.linear = true) : x.target.length = x.parsed.length := by
  cases hx with
  | deletion => cases hlin
  | @bytes lo hi hlt hs hop =>
    obtain ⟨hstart, hstop⟩ := h.ends_of_inside ho hlt hop
    obtain ⟨hslo, hshi⟩ := hs
    obtain ⟨holo, hohi⟩ := hop
    simp only at hslo hshi holo hohi hlin
    simp only [Span.length, hstart, hstop, Segment.image, hlin, if_true]
    omega

/-- Cuts of one segment come in the order of the outer segments. -/
theorem Shared.precedes (h : outer.WellFormed) (ho : o ∈ outer.segments)
    (ht : t ∈ outer.segments) (hot : o.Precedes t) (hx : Shared s o outer x)
    (hy : Shared s t outer y) : x.Precedes y := by
  obtain ⟨hxup, hxin, hxlin, hxwhole⟩ := hx.narrows h ho
  obtain ⟨hyup, hyin, hylin, hywhole⟩ := hy.narrows h ht
  have hparsed : x.parsed.stop ≤ y.parsed.start := by
    have := hot.parsed
    have := (h.parsed_of_mem ho).1
    have := (h.parsed_of_mem ht).1
    cases hx <;> cases hy <;> simp only [Segment.replaced, Span.Inside] at * <;> omega
  have hapart : x.linear = true ∨ y.linear = true → x.target.stop ≤ y.target.start := by
    intro hlin
    have := hot.apart (hlin.imp hxlin hylin)
    have := hxin.2
    have := hyin.1
    omega
  by_cases hlin : x.linear = true ∨ y.linear = true
  · have := hapart hlin
    exact ⟨hparsed, by omega, by omega, hapart⟩
  · rw [not_or, Bool.not_eq_true, Bool.not_eq_true] at hlin
    refine ⟨hparsed, ?_, ?_, hapart⟩ <;> rw [hxwhole hlin.1, hywhole hlin.2]
    · exact hot.start
    · exact hot.stop

/-! ## The pieces tile what they were cut from -/

/-- An offset, moved into the target of a segment, as an offset of its parsed bytes. -/
def backInto (s : Segment) (i : Nat) : Nat :=
  s.parsed.start + (max s.target.start (min i s.target.stop) - s.target.start)

theorem tiles_sharedPart (hlt : s.target.start < s.target.stop)
    (hup : o.parsed.start ≤ o.parsed.stop) :
    Span.Tiles (backInto s o.parsed.start) (backInto s o.parsed.stop)
      ((sharedPart s o).map (·.parsed)) := by
  unfold sharedPart backInto
  split
  · next hempty =>
    simp only [Span.isEmpty, decide_eq_true_eq] at hempty
    split <;>
      simp only [List.map_cons, List.map_nil, Segment.replaced, Span.Tiles] <;> omega
  · next hempty =>
    simp only
    split
    · simp only [List.map_nil, Span.Tiles]
      omega
    · split <;>
        simp only [List.map_cons, List.map_nil, Segment.replaced, Segment.copied, Span.Tiles] <;>
        omega

theorem tiles_flatMap_sharedPart (hlt : s.target.start < s.target.stop) {segments : List Segment}
    {start stop : Nat} (h : Span.Tiles start stop (segments.map (·.parsed))) :
    Span.Tiles (backInto s start) (backInto s stop)
      ((segments.flatMap (sharedPart s)).map (·.parsed)) := by
  induction segments generalizing start with
  | nil =>
    obtain rfl : start = stop := h
    rfl
  | cons o segments ih =>
    obtain ⟨rfl, hup, hrest⟩ := h
    rw [List.flatMap_cons, List.map_append]
    exact (tiles_sharedPart hlt hup).append (ih hrest)

/-- The pieces of a segment tile its parsed bytes. -/
theorem tiles_through (h : outer.WellFormed) (hup : s.parsed.start ≤ s.parsed.stop)
    (hcopied : s.linear = true → s.target.length = s.parsed.length)
    (hin : s.target.stop ≤ outer.parsedLength) :
    Span.Tiles s.parsed.start s.parsed.stop ((through s outer).map (·.parsed)) := by
  by_cases hwhole : s.linear = true → s.target.stop ≤ s.target.start
  · rw [through_of_whole hwhole]
    exact ⟨rfl, hup, rfl⟩
  · obtain ⟨hlin, hlt⟩ := Classical.not_imp.1 hwhole
    have hlen := hcopied hlin
    have htiles := tiles_flatMap_sharedPart (s := s) (by omega) h.tiles
    simp only [Span.length] at hlen
    rw [through_of_linear hlin (by omega)]
    have hfirst : backInto s 0 = s.parsed.start := by
      unfold backInto
      omega
    have hlast : backInto s outer.parsedLength = s.parsed.stop := by
      unfold backInto
      omega
    rwa [hfirst, hlast] at htiles

/-- A byte is copied through both maps or it is not copied. -/
theorem linear_of_mem_through (h : outer.WellFormed)
    (hcopied : s.linear = true → s.target.length = s.parsed.length) (hx : x ∈ through s outer)
    (hlin : x.linear = true) {i : Nat} (hi : i ∈ x.parsed) :
    s.linear = true ∧ i ∈ s.parsed ∧ ∃ o ∈ outer.segments,
      o.linear = true ∧ s.target.start + (i - s.parsed.start) ∈ o.parsed := by
  cases piece_of_mem h hx with
  | whole => cases hlin
  | @shared o _ hslin hlt ho hx =>
    have hlen := hcopied hslin
    simp only [Span.length] at hlen
    cases hx with
    | deletion => cases hlin
    | bytes hlt hs hop =>
      obtain ⟨hslo, hshi⟩ := hs
      obtain ⟨holo, hohi⟩ := hop
      obtain ⟨hlo, hhi⟩ := hi
      simp only at hslo hshi holo hohi hlo hhi
      exact ⟨hslin, ⟨by omega, by omega⟩, o, ho, hlin, by omega, by omega⟩

/-- A piece that was copied holds a byte. -/
theorem parsed_lt_of_linear (h : outer.WellFormed) (hx : x ∈ through s outer)
    (hlin : x.linear = true) : x.parsed.start < x.parsed.stop := by
  cases piece_of_mem h hx with
  | whole => cases hlin
  | shared hslin hlt ho hx =>
    cases hx with
    | deletion => cases hlin
    | bytes hlt hs hop =>
      have hlo := hs.1
      simp only at hlo ⊢
      omega

/-- Every segment leaves a piece. -/
theorem through_ne_nil (h : outer.WellFormed)
    (hcopied : s.linear = true → s.target.length = s.parsed.length)
    (hin : s.target.stop ≤ outer.parsedLength) : through s outer ≠ [] := by
  by_cases hwhole : s.linear = true → s.target.stop ≤ s.target.start
  · rw [through_of_whole hwhole]
    exact List.cons_ne_nil _ _
  · obtain ⟨hlin, hlt⟩ := Classical.not_imp.1 hwhole
    have hlen := hcopied hlin
    simp only [Span.length] at hlen
    intro hnil
    have htiles := tiles_through h (by omega) hcopied hin
    rw [hnil] at htiles
    have : s.parsed.start = s.parsed.stop := htiles
    omega

/-- What each tile is cut into tiles the whole. -/
theorem tiles_flatMap {f : Segment → List Segment} {segments : List Segment} {start stop : Nat}
    (h : Span.Tiles start stop (segments.map (·.parsed)))
    (hf : ∀ s ∈ segments, Span.Tiles s.parsed.start s.parsed.stop ((f s).map (·.parsed))) :
    Span.Tiles start stop ((segments.flatMap f).map (·.parsed)) := by
  induction segments generalizing start with
  | nil => exact h
  | cons s segments ih =>
    obtain ⟨rfl, hup, hrest⟩ := h
    rw [List.flatMap_cons, List.map_append]
    apply (hf s List.mem_cons_self).append
    apply ih hrest
    intro t ht
    exact hf t (List.mem_cons_of_mem s ht)

/-! ## Well-formedness -/

theorem tiles_andThen (hi : inner.WellFormed) (ho : outer.WellFormed)
    (hin : inner.TargetsIn ⟨0, outer.parsedLength⟩) :
    Span.Tiles 0 inner.parsedLength
      ((inner.segments.flatMap fun s => through s outer).map (·.parsed)) := by
  apply tiles_flatMap hi.tiles
  intro s hs
  exact tiles_through ho (hi.parsed_of_mem hs).1 (hi.copied s hs) (hin s hs).2

theorem parsedLength_andThen (hi : inner.WellFormed) (ho : outer.WellFormed)
    (hin : inner.TargetsIn ⟨0, outer.parsedLength⟩) :
    (inner.andThen outer).parsedLength = inner.parsedLength :=
  (tiles_ofSegments (tiles_andThen hi ho hin)).1

/-- What holds of a piece whether it was led on as a whole or cut. -/
theorem of_mem_through (h : outer.WellFormed) (hx : x ∈ through s outer) :
    x.target.start ≤ x.target.stop ∧ x.target.Inside outer.targetSpan ∧
      (x.linear = true → x.target.length = x.parsed.length) := by
  cases piece_of_mem h hx with
  | whole => exact ⟨mapRange_upright _ _ _, h.mapRange_inside _ _, nofun⟩
  | @shared o _ hlin hlt ho hx =>
    obtain ⟨hup, hin, -⟩ := hx.narrows h ho
    have htarget := h.targetsIn_targetSpan o ho
    refine ⟨hup, ⟨?_, ?_⟩, hx.copied h ho⟩
    · exact Nat.le_trans htarget.1 hin.1
    · exact Nat.le_trans hin.2 htarget.2

theorem pairwise_through (h : outer.WellFormed) : (through s outer).Pairwise Segment.Precedes := by
  by_cases hwhole : s.linear = true → s.target.stop ≤ s.target.start
  · rw [through_of_whole hwhole]
    exact List.pairwise_singleton _ _
  · obtain ⟨hlin, hlt⟩ := Classical.not_imp.1 hwhole
    rw [through_of_linear hlin (by omega), List.pairwise_flatMap]
    constructor
    · intro o ho
      unfold sharedPart
      simp only
      split <;> split <;> (try split) <;> simp
    · apply h.precedes.imp_of_mem
      intro o t ho ht hot x hx y hy
      exact Shared.precedes h ho ht hot (shared_of_mem h ho hx) (shared_of_mem h ht hy)

/-- Where a byte is copied, or comes from text at all, its piece is bounded by the ends of the
segment it was cut from. -/
theorem between_of_mem_through (h : outer.WellFormed) (hpos : 0 < outer.parsedLength)
    (hup : s.target.start ≤ s.target.stop) (hx : x ∈ through s outer) :
    Between outer s.target.start s.target.stop x := by
  cases piece_of_mem h hx with
  | whole => exact between_whole h hpos s.parsed hup
  | shared hlin hlt ho hx => exact hx.between h ho

/-- A piece stands for some of the bytes of the segment it was cut from. -/
theorem parsed_inside_of_mem_through (hi : inner.WellFormed) (ho : outer.WellFormed)
    (hin : inner.TargetsIn ⟨0, outer.parsedLength⟩) (hs : s ∈ inner.segments)
    (hx : x ∈ through s outer) : x.parsed.Inside s.parsed := by
  have htiles := tiles_through ho (hi.parsed_of_mem hs).1 (hi.copied s hs) (hin s hs).2
  have hmem := htiles.of_mem (List.mem_map.2 ⟨x, hx, rfl⟩)
  exact ⟨hmem.1, hmem.2.2⟩

/-- Pieces of two segments are in the order of the segments. -/
theorem precedes_of_mem_through (hi : inner.WellFormed) (ho : outer.WellFormed)
    (hin : inner.TargetsIn ⟨0, outer.parsedLength⟩) (hs : s ∈ inner.segments)
    (ht : t ∈ inner.segments) (hst : s.Precedes t) (hx : x ∈ through s outer)
    (hy : y ∈ through t outer) : x.Precedes y := by
  have hparsed : x.parsed.stop ≤ y.parsed.start := by
    have hxs := (parsed_inside_of_mem_through hi ho hin hs hx).2
    have hyt := (parsed_inside_of_mem_through hi ho hin ht hy).1
    have := hst.parsed
    omega
  by_cases hle : 0 < outer.parsedLength ∧ s.target.stop ≤ t.target.start
  · have hxbetween := between_of_mem_through ho hle.1 (hi.upright s hs) hx
    have hybetween := between_of_mem_through ho hle.1 (hi.upright t ht) hy
    exact hxbetween.precedes ho hybetween hle.2 hparsed
  · -- A copied byte in either would keep the targets apart, so both are led on as a whole.
    have hswhole : s.linear = true → s.target.stop ≤ s.target.start := by
      intro hlin
      have := hst.apart (.inl hlin)
      have := (hin s hs).2
      simp only at this
      omega
    have htwhole : t.linear = true → t.target.stop ≤ t.target.start := by
      intro hlin
      have := hst.apart (.inr hlin)
      have := (hin t ht).2
      simp only at this
      omega
    rw [through_of_whole hswhole] at hx
    rw [through_of_whole htwhole] at hy
    obtain rfl := List.mem_singleton.1 hx
    obtain rfl := List.mem_singleton.1 hy
    have hmono := ho.mapRange_mono hst.start hst.stop
    constructor
    · exact hparsed
    · exact hmono.1
    · exact hmono.2
    · intro hlin
      simp [Segment.replaced] at hlin

end OffsetMap

end Polyglot
