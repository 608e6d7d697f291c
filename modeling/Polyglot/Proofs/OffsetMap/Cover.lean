import Polyglot.Proofs.OffsetMap.Images

/-!
# What a mapped range covers

Every parsed byte has an image: the byte it was copied from, or all that its replacement stands
for. `image?` looks it up. A range of bytes is mapped to the smallest span that holds the images of
all of them (`mapRange_covers`): it starts with the image of the first byte and ends with that of
the last one, what was cut out in between lies in it too, and a range inside another is mapped
inside it.
-/

set_option autoImplicit false

namespace Polyglot

namespace OffsetMap

/-- What a parsed byte came from. -/
def image? (m : OffsetMap) (i : Nat) : Option Span :=
  (m.segments.find? fun s => decide (i ∈ s.parsed)).map fun s => s.image i

/-- Each of the bytes from `start` up to and without `stop` came from inside the span. -/
def CameFrom (m : OffsetMap) (start stop : Nat) (span : Span) : Prop :=
  ∀ i, start ≤ i → i < stop → ∃ image, m.image? i = some image ∧ image.Inside span

variable {m : OffsetMap} {s : Segment} {i a b : Nat}

namespace WellFormed

variable (h : m.WellFormed)
include h

theorem image?_of_mem (hs : s ∈ m.segments) (hi : i ∈ s.parsed) :
    m.image? i = some (s.image i) := by
  obtain ⟨pre, post, hsplit, hpre, -⟩ := h.split hs
  have hfind : m.segments.find? (fun t => decide (i ∈ t.parsed)) = some s := by
    apply List.find?_eq_some_iff_append.2
    refine ⟨decide_eq_true hi, pre, post, hsplit, ?_⟩
    intro t ht
    have := (hpre t ht).1.parsed
    rw [Span.mem_iff] at hi
    simp only [Bool.not_eq_true', decide_eq_false_iff_not, Span.mem_iff]
    omega
  unfold image?
  rw [hfind]
  rfl

/-- A range that holds a byte is mapped from the image of its first byte to that of its last. -/
theorem mapRange_eq_images (hab : a < b) (hb : b ≤ m.parsedLength) :
    ∃ first last, m.image? a = some first ∧ m.image? (b - 1) = some last ∧
      m.mapRange a b = ⟨first.start, last.stop⟩ := by
  obtain ⟨s, hs, ha⟩ := h.exists_segment (Nat.lt_of_lt_of_le hab hb)
  obtain ⟨t, ht, hlast⟩ := h.exists_segment (i := b - 1) (by omega)
  refine ⟨s.image a, t.image (b - 1), h.image?_of_mem hs ha, h.image?_of_mem ht hlast, ?_⟩
  have hstop := h.mapEnd_of_mem ht hlast
  rw [Nat.sub_add_cancel (by omega)] at hstop
  rw [mapRange_of_pos (by omega), Nat.min_eq_left (h.mapStart_le_mapEnd hab),
    h.mapStart_of_mem hs ha, hstop]

/-- The bytes of a range came from inside the span that it is mapped to. -/
theorem cameFrom_mapRange (hb : b ≤ m.parsedLength) : m.CameFrom a b (m.mapRange a b) := by
  intro i hai hib
  obtain ⟨s, hs, hi⟩ := h.exists_segment (i := i) (by omega)
  refine ⟨s.image i, h.image?_of_mem hs hi, ?_⟩
  have hstart := h.mapStart_mono hai
  have hstop := h.mapEnd_mono (i := i + 1) (j := b) hib
  rw [h.mapStart_of_mem hs hi] at hstart
  rw [h.mapEnd_of_mem hs hi] at hstop
  rw [mapRange_of_pos (by omega)]
  exact ⟨Nat.le_trans (Nat.min_le_left _ _) hstart, hstop⟩

/-- No smaller span holds what the bytes of a range came from. -/
theorem mapRange_inside_of_cameFrom (hab : a < b) (hb : b ≤ m.parsedLength) {span : Span}
    (hspan : m.CameFrom a b span) : (m.mapRange a b).Inside span := by
  obtain ⟨first, last, hfirst, hlast, hrange⟩ := h.mapRange_eq_images hab hb
  obtain ⟨image, himage, hin⟩ := hspan a (Nat.le_refl a) hab
  obtain rfl := Option.some.inj (hfirst.symm.trans himage)
  obtain ⟨image', himage', hin'⟩ := hspan (b - 1) (by omega) (by omega)
  obtain rfl := Option.some.inj (hlast.symm.trans himage')
  rw [hrange]
  exact ⟨hin.1, hin'.2⟩

/-- What was cut out between two bytes of a range lies in the span that the range is mapped to. -/
theorem target_inside_mapRange (hs : s ∈ m.segments) (hempty : s.parsed.isEmpty = true)
    (ha : a < s.parsed.start) (hb : s.parsed.start < b) : s.target.Inside (m.mapRange a b) := by
  have hparsed := h.parsed_of_mem hs
  have hstop : s.parsed.stop ≤ s.parsed.start := of_decide_eq_true hempty
  have hfirst := h.mapStart_le_target hs ha
  have hlast := h.target_le_mapEnd hs (i := b) (by omega)
  rw [mapRange_of_pos (by omega)]
  exact ⟨Nat.le_trans (Nat.min_le_left _ _) hfirst, hlast⟩

end WellFormed

/-- A range that holds a byte is mapped to the smallest span that holds all its bytes came from,
which is from where the image of the first byte starts to where that of the last one ends; what was
cut out inside the range lies in that span. No mapped range is inverted or leaves the target span,
and a range inside another is mapped inside it. -/
theorem mapRange_covers (h : m.WellFormed) :
    (∀ a b, a < b → b ≤ m.parsedLength →
      (∃ first last, m.image? a = some first ∧ m.image? (b - 1) = some last ∧
        m.mapRange a b = ⟨first.start, last.stop⟩) ∧
      m.CameFrom a b (m.mapRange a b) ∧
      (∀ span, m.CameFrom a b span → (m.mapRange a b).Inside span) ∧
      ∀ s ∈ m.segments, s.parsed.isEmpty = true → a < s.parsed.start → s.parsed.start < b →
        s.target.Inside (m.mapRange a b)) ∧
    (∀ a b, (m.mapRange a b).start ≤ (m.mapRange a b).stop ∧
      (m.mapRange a b).Inside m.targetSpan) ∧
    ∀ a b c d, a < b → c ≤ a → b ≤ d → (m.mapRange a b).Inside (m.mapRange c d) := by
  refine ⟨fun a b hab hb => ⟨h.mapRange_eq_images hab hb, h.cameFrom_mapRange hb, ?_, ?_⟩, ?_, ?_⟩
  · intro span hspan
    exact h.mapRange_inside_of_cameFrom hab hb hspan
  · intro s hs hempty ha hb'
    exact h.target_inside_mapRange hs hempty ha hb'
  · intro a b
    exact ⟨m.mapRange_upright a b, h.mapRange_inside a b⟩
  · intro a b c d hab hca hbd
    exact h.mapRange_inside_mapRange hca hab hbd

/-- Copied bytes around a deletion, a replacement and an insertion. -/
def mended : OffsetMap :=
  ⟨[Segment.copied ⟨0, 2⟩ 0, Segment.replaced ⟨2, 2⟩ ⟨2, 5⟩, Segment.copied ⟨2, 3⟩ 5,
    Segment.replaced ⟨3, 6⟩ ⟨6, 8⟩, Segment.replaced ⟨6, 7⟩ ⟨8, 8⟩, Segment.copied ⟨7, 9⟩ 8]⟩

/-- From inside the copied bytes over the deletion into the replacement: all of that is covered. An
empty range at the deletion is mapped to before it. -/
theorem mapRange_covers_mended :
    (mended.WellFormed ∧ 1 < 5 ∧ 5 ≤ mended.parsedLength) ∧
    (∃ first last, mended.image? 1 = some first ∧ mended.image? 4 = some last ∧
      mended.mapRange 1 5 = ⟨first.start, last.stop⟩) ∧
    mended.image? 1 = some ⟨1, 2⟩ ∧ mended.image? 4 = some ⟨6, 8⟩ ∧
    mended.CameFrom 1 5 ⟨1, 8⟩ ∧ (⟨2, 5⟩ : Span).Inside (mended.mapRange 1 5) ∧
    (mended.mapRange 2 2).Inside mended.targetSpan ∧ mended.mapRange 2 2 = ⟨2, 2⟩ ∧
    (mended.mapRange 3 4).Inside (mended.mapRange 1 5) := by
  have hm : mended.WellFormed := by decide
  obtain ⟨hranges, hupright, hmono⟩ := mapRange_covers hm
  obtain ⟨himages, hcame, -, hdeleted⟩ := hranges 1 5 (by decide) (by decide)
  have hrange : mended.mapRange 1 5 = ⟨1, 8⟩ := by decide
  refine ⟨⟨hm, by decide, by decide⟩, himages, by decide, by decide, ?_, ?_, (hupright 2 2).2,
    by decide, hmono 3 4 1 5 (by decide) (by decide) (by decide)⟩
  · rwa [hrange] at hcame
  · exact hdeleted (Segment.replaced ⟨2, 2⟩ ⟨2, 5⟩) (by decide) rfl (by decide) (by decide)

end OffsetMap

end Polyglot
