import Polyglot.Edit
import Polyglot.Proofs.Log
import Polyglot.Proofs.OffsetMap.Copies

/-!
# The maps of edits

Each of the three ways to make an edit gives a well-formed map of exactly the bytes of the edit
into the slice (`Made.fits`). Keeping the slice and splicing it also copy faithfully: a byte of
a linear segment is the byte of the slice it is led to (`Spliced.copies`). Place-for-place
bytes need not, which is what they are for.
-/

set_option autoImplicit false

namespace Polyglot

namespace Edit

/-- The edits of a slice that keep it or splice it. -/
inductive Spliced (slice : Bytes) : Edit → Prop where
  | unchanged : Spliced slice (unchanged slice)
  | ofSplices {splices : List Splice} {e : Edit} (h : ofSplices slice splices = .ok e) :
      Spliced slice e

/-- The edits of a slice that the three ways to make one give. -/
inductive Made (slice : Bytes) : Edit → Prop where
  | spliced {e : Edit} (h : Spliced slice e) : Made slice e
  | positional (bytes : Bytes) : Made slice (positional bytes slice.length)

/-- The map of an edit is one of its bytes into the slice. -/
structure Fits (slice : Bytes) (e : Edit) : Prop where
  wellFormed : e.map.WellFormed
  parsedLength : e.map.parsedLength = e.bytes.length
  targetsIn : e.map.TargetsIn ⟨0, slice.length⟩
  nonempty : e.map.segments ≠ []

/-- Segments that tile the bytes of the edit and whose targets tile the slice make it fit. -/
theorem Fits.ofSegments {slice bytes : Bytes} {segments : List Segment}
    (parsed : Span.Tiles 0 bytes.length (segments.map (·.parsed)))
    (target : Span.Tiles 0 slice.length (segments.map (·.target)))
    (copied : ∀ s ∈ segments, s.linear = true → s.target.length = s.parsed.length) :
    Fits slice ⟨bytes, OffsetMap.ofSegments segments⟩ := by
  have htarget : ∀ s ∈ segments, s.target.start ≤ s.target.stop ∧ s.target.stop ≤ slice.length :=
    fun s hs => (target.of_mem (List.mem_map.2 ⟨s, hs, rfl⟩)).2
  constructor
  · exact OffsetMap.WellFormed.ofSegments parsed (fun s hs => (htarget s hs).1) copied
      (OffsetMap.pairwise_of_tiles parsed target)
  · exact (OffsetMap.tiles_ofSegments parsed).1
  · exact OffsetMap.targetsIn_ofSegments rfl fun s hs => ⟨Nat.zero_le _, (htarget s hs).2⟩
  · exact OffsetMap.ofSegments_ne_nil segments

/-! ## What splicing lays out -/

/-- Bytes and segments that stand for `cursor..stop` of the slice, from offset `written` on. -/
structure Laid (slice : Bytes) (cursor stop written : Nat) (out : Bytes × List Segment) : Prop where
  parsed : Span.Tiles written (written + out.1.length) (out.2.map (·.parsed))
  target : Span.Tiles cursor stop (out.2.map (·.target))
  copied : ∀ s ∈ out.2, s.linear = true → s.target.length = s.parsed.length
  bytes : ∀ s ∈ out.2, s.linear = true → ∀ i ∈ s.parsed,
    out.1[i - written]? = slice[(s.image i).start]?

variable {slice : Bytes} {cursor middle stop written : Nat} {out a b : Bytes × List Segment}

theorem Laid.append (ha : Laid slice cursor middle written a)
    (hb : Laid slice middle stop (written + a.1.length) b) :
    Laid slice cursor stop written (a.1 ++ b.1, a.2 ++ b.2) := by
  have hparsed := ha.parsed.append hb.parsed
  have htarget := ha.target.append hb.target
  constructor
  · rw [List.map_append, List.length_append, ← Nat.add_assoc]
    exact hparsed
  · rw [List.map_append]
    exact htarget
  · intro s hs
    rcases List.mem_append.1 hs with hs | hs
    · exact ha.copied s hs
    · exact hb.copied s hs
  · intro s hs hlin i hi
    rcases List.mem_append.1 hs with hs | hs
    · have hin := ha.parsed.of_mem (List.mem_map.2 ⟨s, hs, rfl⟩)
      have hlo := hi.1
      have hhi := hi.2
      rw [← ha.bytes s hs hlin i hi]
      exact List.getElem?_append_left (by omega)
    · have hin := hb.parsed.of_mem (List.mem_map.2 ⟨s, hs, rfl⟩)
      have hlo := hi.1
      rw [← hb.bytes s hs hlin i hi, show i - (written + a.1.length) = i - written - a.1.length
        by omega]
      exact List.getElem?_append_right (by omega)

theorem laid_copy (hle : cursor ≤ stop) (hstop : stop ≤ slice.length) :
    Laid slice cursor stop written (copy slice cursor stop written) := by
  have hlen : (slice.slice cursor stop).length = stop - cursor := by
    rw [Bytes.length_slice]
    omega
  rw [copy_eq]
  split
  · constructor
    · simp [Segment.copied, Span.Tiles, hlen]
    · have hlast : cursor + (written + (stop - cursor) - written) = stop := by omega
      exact ⟨rfl, Nat.le_add_right _ _, hlast⟩
    · intro s hs _
      obtain rfl := List.mem_singleton.1 hs
      simp only [Segment.copied, Span.length]
      omega
    · intro s hs _ i hi
      obtain rfl := List.mem_singleton.1 hs
      obtain ⟨hlo, hhi⟩ := hi
      simp only [Segment.copied] at hlo hhi
      simp only [Segment.copied, Segment.image, if_true, Bytes.slice, List.getElem?_drop]
      exact List.getElem?_take_of_lt (by omega)
  · obtain rfl : cursor = stop := by omega
    constructor
    · rfl
    · rfl
    · intro s hs
      cases hs
    · intro s hs
      cases hs

theorem laid_replace {s : Splice} (hle : s.span.start ≤ s.span.stop) :
    Laid slice s.span.start s.span.stop written (replace s written) := by
  unfold replace
  split
  · next hvoid =>
    simp only [Splice.isVoid, Span.isEmpty, Bool.and_eq_true, decide_eq_true_eq] at hvoid
    have heq : s.span.start = s.span.stop := by omega
    constructor
    · rfl
    · exact heq
    · intro t ht
      cases ht
    · intro t ht
      cases ht
  · have hreplaced : ∀ t ∈ [Segment.replaced ⟨written, written + s.replacement.length⟩ s.span],
        t.linear = false := by
      intro t ht
      obtain rfl := List.mem_singleton.1 ht
      rfl
    constructor
    · simp [Segment.replaced, Span.Tiles]
    · exact ⟨rfl, hle, rfl⟩
    · intro t ht hlin
      rw [hreplaced t ht] at hlin
      cases hlin
    · intro t ht hlin
      rw [hreplaced t ht] at hlin
      cases hlin

/-- What a list of splices lays out: a copy up to the first one, its replacement, and what the
rest lays out from there. -/
theorem splice_cons_ok {s : Splice} {rest : List Splice}
    (h : splice slice cursor written (s :: rest) = .ok out) :
    s.span.start ≤ s.span.stop ∧ s.span.stop ≤ slice.length ∧ cursor ≤ s.span.start ∧
      ∃ kept put more, kept = copy slice cursor s.span.start written ∧
        put = replace s (written + kept.1.length) ∧
        splice slice s.span.stop (written + kept.1.length + put.1.length) rest = .ok more ∧
        out = (kept.1 ++ put.1 ++ more.1, kept.2 ++ put.2 ++ more.2) := by
  rw [splice_cons_eq] at h
  split at h
  · cases h
  · next hfits =>
    rw [Bool.not_eq_true, Bool.not_eq_false', Span.fits_iff] at hfits
    split at h
    · cases h
    · next hordered =>
      obtain ⟨more, hmore, rfl⟩ := exists_of_map_ok h
      exact ⟨hfits.1, hfits.2, Nat.le_of_not_lt hordered, _, _, more, rfl, rfl, hmore, rfl⟩

/-- Splicing lays out the slice from the cursor to its end. -/
theorem laid_splice {splices : List Splice} (hcursor : cursor ≤ slice.length)
    (h : splice slice cursor written splices = .ok out) :
    Laid slice cursor slice.length written out := by
  induction splices generalizing cursor written out with
  | nil =>
    obtain rfl : copy slice cursor slice.length written = out := by simpa using h
    exact laid_copy hcursor (Nat.le_refl _)
  | cons s rest ih =>
    obtain ⟨hup, hstop, hordered, kept, put, more, hkept, hput, hmore, rfl⟩ := splice_cons_ok h
    have hcopied : Laid slice cursor s.span.start written kept := by
      rw [hkept]
      exact laid_copy hordered (Nat.le_trans hup hstop)
    have hreplaced : Laid slice s.span.start s.span.stop (written + kept.1.length) put := by
      rw [hput]
      exact laid_replace hup
    have hrest := ih hstop hmore
    rw [Nat.add_assoc, ← List.length_append] at hrest
    exact (hcopied.append hreplaced).append hrest

/-! ## The three ways to make an edit -/

/-- An edit of splices is what splicing from the front on lays out. -/
theorem ofSplices_ok {splices : List Splice} {e : Edit} (h : ofSplices slice splices = .ok e) :
    ∃ out, splice slice 0 0 splices = .ok out ∧ e = ⟨out.1, OffsetMap.ofSegments out.2⟩ := by
  rw [ofSplices_eq] at h
  obtain ⟨out, hout, rfl⟩ := exists_of_map_ok h
  exact ⟨out, hout, rfl⟩

theorem laid_ofSplices {splices : List Splice} {e : Edit} (h : ofSplices slice splices = .ok e) :
    ∃ out, Laid slice 0 slice.length 0 out ∧ e = ⟨out.1, OffsetMap.ofSegments out.2⟩ := by
  obtain ⟨out, hout, rfl⟩ := ofSplices_ok h
  exact ⟨out, laid_splice (Nat.zero_le _) hout, rfl⟩

theorem Spliced.fits {e : Edit} (h : Spliced slice e) : Fits slice e := by
  cases h with
  | unchanged =>
    change Fits slice ⟨slice, OffsetMap.ofSegments [Segment.copied ⟨0, slice.length⟩ 0]⟩
    apply Fits.ofSegments
    · simp [Segment.copied, Span.Tiles]
    · simp [Segment.copied, Span.Tiles, Span.length]
    · simp [Segment.copied, Span.length]
  | ofSplices h =>
    obtain ⟨out, hlaid, rfl⟩ := laid_ofSplices h
    exact Fits.ofSegments (by simpa using hlaid.parsed) hlaid.target hlaid.copied

theorem fits_positional (slice bytes : Bytes) : Fits slice (positional bytes slice.length) := by
  unfold positional
  simp only
  apply Fits.ofSegments
  · split
    · simp only [List.map_cons, List.map_nil, Segment.copied, Segment.replaced, Span.Tiles,
        true_and, and_true]
      omega
    · split <;>
        simp only [List.map_cons, List.map_nil, Segment.copied, Segment.replaced, Span.Tiles,
          true_and, and_true] <;>
        omega
  · split
    · simp only [List.map_cons, List.map_nil, Segment.copied, Segment.replaced, Span.Tiles,
        Span.length, true_and, and_true]
      omega
    · split <;>
        simp only [List.map_cons, List.map_nil, Segment.copied, Segment.replaced, Span.Tiles,
          Span.length, true_and, and_true] <;>
        omega
  · -- Only the front is linear; what follows it is a replacement or nothing.
    intro s hs hlin
    rcases List.mem_cons.1 hs with rfl | hs
    · simp [Segment.copied, Span.length]
    · split at hs
      · rw [List.mem_singleton.1 hs] at hlin
        cases hlin
      · split at hs
        · rw [List.mem_singleton.1 hs] at hlin
          cases hlin
        · cases hs

theorem Made.fits {e : Edit} (h : Made slice e) : Fits slice e := by
  cases h with
  | spliced h => exact h.fits
  | positional bytes => exact fits_positional slice bytes

/-- Edits that keep or splice a slice copy it faithfully. -/
theorem Spliced.copies {e : Edit} (h : Spliced slice e) : e.map.Copies e.bytes slice := by
  cases h with
  | unchanged =>
    intro s hs _ i hi
    obtain rfl := List.mem_singleton.1 hs
    simp [Edit.unchanged, Segment.copied, Segment.image]
  | ofSplices h =>
    obtain ⟨out, hlaid, rfl⟩ := laid_ofSplices h
    exact OffsetMap.copies_ofSegments fun s hs hlin i hi => hlaid.bytes s hs hlin i hi

end Edit

end Polyglot
