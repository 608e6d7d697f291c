import Polyglot.Chain.Editors
import Polyglot.Proofs.Edit.Maps
import Polyglot.Proofs.OffsetMap.Shifts

/-!
# Edits that split no copy

Between two copies that an edit makes of its slice there is a replacement, unless a void splice
stands between them: it puts in nothing for nothing, so it leaves no segment, but it ends the
copy before it. Edits without void splices are whole (`whole_ofSplices`), and so are kept slices
and place-for-place bytes.
-/

set_option autoImplicit false

namespace Polyglot

namespace Edit

/-- The edit is made in one of the three ways and no two of its copies meet. -/
structure Whole (slice : Bytes) (e : Edit) : Prop where
  made : Made slice e
  unsplit : e.map.Unsplit

theorem whole_unchanged (slice : Bytes) : Whole slice (unchanged slice) := by
  refine ⟨.spliced .unchanged, fun i hpos hi => ?_⟩
  exact ⟨_, List.mem_singleton.2 rfl, .inr ⟨rfl, hpos, hi⟩⟩

theorem whole_positional (slice bytes : Bytes) :
    Whole slice (positional bytes slice.length) := by
  refine ⟨.positional bytes, fun i hpos hi => ?_⟩
  rw [(fits_positional slice bytes).parsedLength] at hi
  unfold positional at hi ⊢
  simp only at hi ⊢
  by_cases hshared : i < min bytes.length slice.length
  · exact ⟨_, List.mem_cons_self, .inr ⟨rfl, hpos, hshared⟩⟩
  · -- Behind the shared part there are only bytes too many.
    rw [if_pos (by omega)]
    refine ⟨_, List.mem_cons_of_mem _ (List.mem_singleton.2 rfl), .inl ⟨rfl, ?_, ?_⟩⟩
    · simp only [Segment.replaced]
      omega
    · exact Nat.le_of_lt hi

variable {slice : Bytes} {cursor written : Nat} {out : Bytes × List Segment} {i : Nat}

/-- Inside what a copy writes, bytes on both sides were copied together. -/
theorem exists_surrounds_copy {stop : Nat} (hstop : stop ≤ slice.length) (hlo : written < i)
    (hhi : i < written + (copy slice cursor stop written).1.length) :
    ∃ s ∈ (copy slice cursor stop written).2, s.Surrounds i := by
  rw [copy_eq] at hhi ⊢
  split at hhi
  · next hlt =>
    rw [if_pos hlt]
    rw [Bytes.length_slice] at hhi
    refine ⟨_, List.mem_singleton.2 rfl, rfl, hlo, ?_⟩
    simp only [Segment.copied]
    omega
  · simp only [List.length_nil] at hhi
    omega

/-- What a splice puts in reaches from the first to the last offset of it. -/
theorem exists_reaches_replace {s : Splice} (hvoid : s.isVoid = false) (hlo : written ≤ i)
    (hhi : i ≤ written + (replace s written).1.length) :
    ∃ t ∈ (replace s written).2, t.Reaches i := by
  unfold replace at hhi ⊢
  rw [if_neg (by simp [hvoid])] at hhi ⊢
  exact ⟨_, List.mem_singleton.2 rfl, rfl, hlo, hhi⟩

/-- Where no splice is void, what splicing writes has no two copies that meet. -/
theorem unsplit_splice {splices : List Splice} (hvoid : ∀ s ∈ splices, s.isVoid = false)
    (h : splice slice cursor written splices = .ok out) (hlo : written < i)
    (hhi : i < written + out.1.length) : ∃ s ∈ out.2, s.Reaches i ∨ s.Surrounds i := by
  induction splices generalizing cursor written out with
  | nil =>
    obtain rfl : copy slice cursor slice.length written = out := by simpa using h
    obtain ⟨s, hs, his⟩ := exists_surrounds_copy (Nat.le_refl _) hlo hhi
    exact ⟨s, hs, .inr his⟩
  | cons s rest ih =>
    obtain ⟨hup, hstop, -, kept, put, more, hkept, hput, hmore, rfl⟩ := splice_cons_ok h
    simp only [List.length_append] at hhi
    -- The replacement takes both of its ends, so the copies around it never meet.
    rcases Nat.lt_or_ge i (written + kept.1.length) with hlt | hge
    · rw [hkept] at hlt
      obtain ⟨t, ht, hit⟩ := exists_surrounds_copy (Nat.le_trans hup hstop) hlo hlt
      rw [← hkept] at ht
      exact ⟨t, List.mem_append_left _ (List.mem_append_left _ ht), .inr hit⟩
    · rcases Nat.lt_or_ge (written + kept.1.length + put.1.length) i with hgt | hle
      · have hrest : ∀ t ∈ rest, t.isVoid = false :=
          fun t ht => hvoid t (List.mem_cons_of_mem s ht)
        obtain ⟨t, ht, hit⟩ := ih hrest hmore hgt (by omega)
        exact ⟨t, List.mem_append_right _ ht, hit⟩
      · rw [hput] at hle
        obtain ⟨t, ht, hit⟩ := exists_reaches_replace (hvoid s List.mem_cons_self) hge hle
        rw [← hput] at ht
        exact ⟨t, List.mem_append_left _ (List.mem_append_right _ ht), .inl hit⟩

/-- Edits without void splices are whole. -/
theorem whole_ofSplices {splices : List Splice} {e : Edit}
    (hvoid : ∀ s ∈ splices, s.isVoid = false) (h : ofSplices slice splices = .ok e) :
    Whole slice e := by
  have hmade : Made slice e := .spliced (.ofSplices h)
  refine ⟨hmade, fun i hpos hi => ?_⟩
  rw [hmade.fits.parsedLength] at hi
  obtain ⟨out, hout, rfl⟩ := ofSplices_ok h
  obtain ⟨s, hs, his⟩ := unsplit_splice hvoid hout hpos (by simpa using hi)
  refine ⟨s, ?_, his⟩
  rwa [OffsetMap.segments_ofSegments (List.ne_nil_of_mem hs)]

end Edit

/-- Markers hold bytes, so none is taken out by a void splice. -/
theorem Editor.isVoid_of_mem_wrapperSplices {slice : Bytes} {s : Splice}
    (hs : s ∈ wrapperSplices slice) : s.isVoid = false := by
  rw [wrapperSplices_eq] at hs
  obtain ⟨span, hspan, rfl⟩ := List.mem_map.1 hs
  have hlt : span.start < span.stop := by
    rcases List.mem_append.1 hspan with hopening | hclosing
    · rw [Option.mem_toList] at hopening
      simp only [leadingMarker?_eq, Option.ite_none_right_eq_some, Option.some.injEq] at hopening
      rw [← hopening.2]
      simp
    · rw [Option.mem_toList] at hclosing
      simp only [trailingMarker?_eq, Option.ite_none_right_eq_some, Option.some.injEq] at hclosing
      rw [← hclosing.2]
      simp only
      omega
  have hempty : span.isEmpty = false := decide_eq_false (Nat.not_le_of_lt hlt)
  simp [Splice.delete, Splice.isVoid, hempty]

end Polyglot
