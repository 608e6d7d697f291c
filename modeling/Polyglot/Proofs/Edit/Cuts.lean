import Mathlib.Data.List.Sort
import Polyglot.Proofs.Edit.Splices

/-!
# Cuts

An edit that only cuts spans out keeps every other byte of the slice (`keeps_of_delete`). What it puts
in is empty, so a segment with a byte in it is linear, and the targets of the other segments are the
spans (`CarriesOut.linear_iff`). So its bytes are those of the offsets outside of the spans
(`uncut`), in order, and the map leads each of them back to just the offset it was kept from.
-/

set_option autoImplicit false

namespace Polyglot

namespace Edit

/-- The offsets below a length that lie in none of the spans, in order. -/
def uncut (length : Nat) (spans : List Span) : List Nat :=
  (List.range length).filter fun k => ∀ s ∈ spans, ¬ k ∈ s

/-- The bytes of the edit are those of some offsets of the slice, and each is mapped to the one it was
kept from. -/
structure Keeps (slice : Bytes) (offsets : List Nat) (e : Edit) : Prop where
  length : e.bytes.length = offsets.length
  byte : ∀ i k : Nat, offsets[i]? = some k → e.bytes[i]? = slice[k]?
  place : ∀ i k : Nat, offsets[i]? = some k → e.map.mapRange i (i + 1) = ⟨k, k + 1⟩

variable {slice : Bytes} {spans : List Span} {e : Edit} {g : Segment} {i j k length : Nat}

theorem mem_uncut : k ∈ uncut length spans ↔ k < length ∧ ∀ s ∈ spans, ¬ k ∈ s := by
  simp [uncut]

theorem pairwise_uncut (length : Nat) (spans : List Span) :
    (uncut length spans).Pairwise (· < ·) :=
  List.pairwise_lt_range.filter _

/-! ## The segments of a cut -/

/-- A segment that is not linear stands for a span that is cut out, and has no byte. -/
theorem CarriesOut.cut_of_mem (h : CarriesOut slice (spans.map Splice.delete) e)
    (hg : g ∈ e.map.segments) (hlin : g.linear = false) :
    g.target ∈ spans ∧ g.parsed.stop ≤ g.parsed.start := by
  have hmem : g ∈ replacements e.map.segments := List.mem_filter.2 ⟨hg, by simp [hlin]⟩
  have hpair : (g.target, e.bytes.slice g.parsed.start g.parsed.stop) ∈
      (replacements e.map.segments).map fun g =>
        (g.target, e.bytes.slice g.parsed.start g.parsed.stop) := List.mem_map.2 ⟨g, hmem, rfl⟩
  rw [h.replaced] at hpair
  obtain ⟨s, hs, heq⟩ := List.mem_map.1 hpair
  obtain ⟨span, hspan, rfl⟩ := List.mem_map.1 (List.mem_filter.1 hs).1
  obtain ⟨htarget, hbytes⟩ := Prod.mk.inj heq
  refine ⟨htarget ▸ hspan, ?_⟩
  have hlength := congrArg List.length hbytes
  rw [Bytes.length_slice, Splice.delete, List.length_nil] at hlength
  have := (h.parsed.of_mem (List.mem_map.2 ⟨g, hg, rfl⟩)).2.2
  omega

/-- A span that is cut out is the target of a segment, if there is anything in it. -/
theorem CarriesOut.exists_cut (h : CarriesOut slice (spans.map Splice.delete) e) {s : Span}
    (hs : s ∈ spans) (hk : k ∈ s) : ∃ g ∈ e.map.segments, g.linear = false ∧ g.target = s := by
  have hempty : s.isEmpty = false := by
    rw [Span.mem_iff] at hk
    exact decide_eq_false (by omega)
  have hmem : Splice.delete s ∈ (spans.map Splice.delete).filter fun s => !s.isVoid :=
    List.mem_filter.2 ⟨List.mem_map.2 ⟨s, hs, rfl⟩, by simp [Splice.delete, Splice.isVoid, hempty]⟩
  have hpair : (s, []) ∈ ((spans.map Splice.delete).filter fun s => !s.isVoid).map fun s =>
      (s.span, s.replacement) := List.mem_map.2 ⟨_, hmem, rfl⟩
  rw [← h.replaced] at hpair
  obtain ⟨g, hg, heq⟩ := List.mem_map.1 hpair
  obtain ⟨hg, hlin⟩ := List.mem_filter.1 hg
  exact ⟨g, hg, by simpa using hlin, (Prod.mk.inj heq).1⟩

/-- The bytes behind a segment are kept just when the segment is linear. -/
theorem CarriesOut.linear_iff (h : CarriesOut slice (spans.map Splice.delete) e)
    (hm : e.map.WellFormed) (hg : g ∈ e.map.segments) (hk : k ∈ g.target) :
    g.linear = true ↔ ∀ s ∈ spans, ¬ k ∈ s := by
  constructor
  · intro hlin s hs hks
    obtain ⟨c, hc, hcut, rfl⟩ := h.exists_cut hs hks
    rw [Span.mem_iff] at hk hks
    -- A linear target shares no byte with any other.
    rcases hm.eq_or_precedes hg hc with rfl | hgc | hcg
    · rw [hlin] at hcut
      cases hcut
    · have := hgc.apart (.inl hlin)
      omega
    · have := hcg.apart (.inr hlin)
      omega
  · intro hkept
    by_contra hlin
    exact hkept _ (h.cut_of_mem hg (Bool.eq_false_iff.2 hlin)).1 hk

/-! ## The bytes of a cut -/

section Bytes

variable (h : CarriesOut slice (spans.map Splice.delete) e) (hm : e.map.WellFormed)
include h hm

/-- Every byte lies in a linear segment. -/
theorem CarriesOut.exists_linear (hi : i < e.bytes.length) :
    ∃ g ∈ e.map.segments, g.linear = true ∧ i ∈ g.parsed := by
  rw [← h.parsedLength] at hi
  obtain ⟨g, hg, hig⟩ := hm.exists_segment hi
  refine ⟨g, hg, ?_, hig⟩
  by_contra hlin
  have := (h.cut_of_mem hg (Bool.eq_false_iff.2 hlin)).2
  rw [Span.mem_iff] at hig
  omega

/-- The map leads one byte further for one byte further. -/
theorem CarriesOut.mapRange_succ (hi : i < e.bytes.length) :
    e.map.mapRange i (i + 1) = ⟨e.map.mapStart i, e.map.mapStart i + 1⟩ := by
  obtain ⟨g, hg, hlin, hig⟩ := h.exists_linear hm hi
  rw [hm.mapRange_of_linear hg hlin hig.1 (Nat.lt_add_one i) hig.2, Nat.add_sub_cancel_left]

/-- Bytes stay in order. -/
theorem CarriesOut.mapStart_lt (hij : i < j) (hj : j < e.bytes.length) :
    e.map.mapStart i < e.map.mapStart j := by
  obtain ⟨g, hg, hlin, hig⟩ := h.exists_linear hm (Nat.lt_trans hij hj)
  have hstop := hm.mapEnd_of_mem hg hig
  have hle := hm.mapEnd_succ_le_mapStart hg hlin hig hij
  rw [hm.mapStart_of_mem hg hig]
  rw [hstop] at hle
  rw [Span.mem_iff] at hig
  simp only [Segment.image, hlin, if_true] at hle ⊢
  omega

/-- The offsets that bytes are mapped to are those outside of the spans. -/
theorem CarriesOut.exists_mapStart_iff :
    (∃ i < e.bytes.length, e.map.mapStart i = k) ↔
      k < slice.length ∧ ∀ s ∈ spans, ¬ k ∈ s := by
  constructor
  · rintro ⟨i, hi, rfl⟩
    obtain ⟨g, hg, hlin, hig⟩ := h.exists_linear hm hi
    have hlength := hm.copied g hg hlin
    have htarget := (h.target.of_mem (List.mem_map.2 ⟨g, hg, rfl⟩)).2.2
    have hk : e.map.mapStart i ∈ g.target := by
      rw [hm.mapStart_of_mem hg hig, Span.mem_iff]
      rw [Span.mem_iff] at hig
      simp only [Span.length] at hlength
      simp only [Segment.image, hlin, if_true]
      omega
    exact ⟨Nat.lt_of_lt_of_le hk.2 htarget, (h.linear_iff hm hg hk).1 hlin⟩
  · rintro ⟨hk, hkept⟩
    obtain ⟨target, htarget, hkg⟩ := h.target.exists_mem (Nat.zero_le k) hk
    obtain ⟨g, hg, rfl⟩ := List.mem_map.1 htarget
    have hlin := (h.linear_iff hm hg hkg).2 hkept
    have hlength := hm.copied g hg hlin
    obtain ⟨hup, hstop⟩ := hm.parsed_of_mem hg
    rw [h.parsedLength] at hstop
    rw [Span.mem_iff] at hkg
    simp only [Span.length] at hlength
    have hig : g.parsed.start + (k - g.target.start) ∈ g.parsed := by
      rw [Span.mem_iff]
      omega
    refine ⟨_, Nat.lt_of_lt_of_le hig.2 hstop, ?_⟩
    rw [hm.mapStart_of_mem hg hig]
    simp only [Segment.image, hlin, if_true]
    omega

/-- The offsets that bytes are mapped to, byte by byte. -/
theorem CarriesOut.map_mapStart :
    (List.range e.bytes.length).map e.map.mapStart = uncut slice.length spans := by
  -- Both lists ascend, so it is enough that they have the same members.
  apply List.Pairwise.eq_of_mem_iff _ (pairwise_uncut slice.length spans)
  · intro k
    rw [mem_uncut, ← h.exists_mapStart_iff hm, List.mem_map]
    simp only [List.mem_range]
  · apply List.pairwise_map.2
    apply List.pairwise_lt_range.imp_of_mem
    intro i j _ hj hij
    exact h.mapStart_lt hm hij (List.mem_range.1 hj)

end Bytes

/-- An edit that only cuts spans out keeps all other bytes, in order, and maps each of them to the
offset it was kept from. -/
theorem keeps_of_delete (h : ofSplices slice (spans.map Splice.delete) = .ok e) :
    Keeps slice (uncut slice.length spans) e := by
  have hcarries := (carriesOut_of_ofSplices slice (spans.map Splice.delete)).2.2 e h
  have hspliced : Spliced slice e := .ofSplices h
  have hm := hspliced.fits.wellFormed
  have hoffsets := hcarries.map_mapStart hm
  have hplace : ∀ i k : Nat, (uncut slice.length spans)[i]? = some k →
      i < e.bytes.length ∧ e.map.mapStart i = k := by
    intro i k hk
    rw [← hoffsets, List.getElem?_map, Option.map_eq_some_iff] at hk
    obtain ⟨j, hj, rfl⟩ := hk
    obtain ⟨hlt, rfl⟩ := List.getElem?_eq_some_iff.1 hj
    simpa using hlt
  constructor
  · rw [← hoffsets, List.length_map, List.length_range]
  · intro i k hk
    obtain ⟨hi, rfl⟩ := hplace i k hk
    obtain ⟨g, hg, hlin, hig⟩ := hcarries.exists_linear hm hi
    rw [hspliced.copies g hg hlin i hig, hm.mapStart_of_mem hg hig]
  · intro i k hk
    obtain ⟨hi, rfl⟩ := hplace i k hk
    exact hcarries.mapRange_succ hm hi

end Edit

end Polyglot
