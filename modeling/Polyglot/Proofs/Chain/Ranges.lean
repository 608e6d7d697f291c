import Polyglot.Chain.Resolve

/-!
# The check of ranges

What an extractor returns is checked in one pass, which keeps no more than how far the ranges reach
so far (`furthest`). It objects to the first range that cannot be sliced
(`result_checkRanges_eq_error_iff`), and up to there it warns about each range that starts before an
earlier one ended (`mem_records_checkRanges_iff`). Though it looks at the furthest end only, it
misses nothing: ranges are accepted without a warning exactly if they fit and any two of them are in
order (`checkRanges_eq_pure_iff`).
-/

set_option autoImplicit false

namespace Polyglot

theorem Span.fits_eq_false_iff {s : Span} {len : Nat} :
    s.fits len = false ↔ s.stop < s.start ∨ len < s.stop := by
  rw [← Bool.not_eq_true, fits_iff]
  omega

/-- An element of a list is the first one, or it is one behind it. -/
theorem exists_split_cons {α : Type} {P : List α → α → Prop} {first : α} {rest : List α} :
    (∃ before a behind, first :: rest = before ++ a :: behind ∧ P before a) ↔
      P [] first ∨ ∃ before a behind, rest = before ++ a :: behind ∧ P (first :: before) a := by
  constructor
  · rintro ⟨before, a, behind, hsplit, hP⟩
    cases before with
    | nil =>
      obtain ⟨rfl, -⟩ := List.cons.inj hsplit
      exact .inl hP
    | cons earlier before =>
      obtain ⟨rfl, hrest⟩ := List.cons.inj hsplit
      exact .inr ⟨before, a, behind, hrest, hP⟩
  · rintro (hP | ⟨before, a, behind, rfl, hP⟩)
    · exact ⟨[], first, rest, rfl, hP⟩
    · exact ⟨first :: before, a, behind, rfl, hP⟩

namespace ChainSpec

/-- The first of some ranges that cannot be sliced out of so many bytes: it is inverted, or it
reaches too far. -/
def FirstMisfit (length : Nat) (ranges : List Span) (range : Span) : Prop :=
  ∃ before behind, ranges = before ++ range :: behind ∧
    (∀ earlier ∈ before, earlier.start ≤ earlier.stop ∧ earlier.stop ≤ length) ∧
    (range.stop < range.start ∨ length < range.stop)

/-- How far some ranges reach, and no less than was reached before. -/
def furthest (reached : Nat) (ranges : List Span) : Nat :=
  ranges.foldl (fun reached range => max reached range.stop) reached

/-- The warning about a range that starts before the furthest end of those before it. -/
def overlapWarning (language : Language) (extractor : String) (range : Span) (reached : Nat) :
    Record :=
  ⟨.warn, language.name ++ " extractor '" ++ extractor ++
    "' returned overlapping or unordered range " ++ range.text ++
    s!" (previous ended at {reached})"⟩

variable {language : Language} {extractor : String} {length reached : Nat} {range : Span}
  {ranges rest : List Span}

theorem find?_eq_some_iff_firstMisfit :
    ranges.find? (!·.fits length) = some range ↔ FirstMisfit length ranges range := by
  simp only [List.find?_eq_some_iff_append, Bool.not_eq_true', Bool.not_not, Span.fits_iff,
    Span.fits_eq_false_iff]
  constructor
  · rintro ⟨hrange, before, behind, hsplit, hbefore⟩
    exact ⟨before, behind, hsplit, hbefore, hrange⟩
  · rintro ⟨before, behind, hsplit, hbefore, hrange⟩
    exact ⟨hrange, before, behind, hsplit, hbefore⟩

theorem lt_furthest_iff {n : Nat} :
    n < furthest reached ranges ↔ n < reached ∨ ∃ range ∈ ranges, n < range.stop := by
  induction ranges generalizing reached with
  | nil => simp [furthest]
  | cons range rest ih =>
    have hcons : furthest reached (range :: rest) = furthest (max reached range.stop) rest := rfl
    have hmax : n < max reached range.stop ↔ n < reached ∨ n < range.stop := by omega
    simp only [hcons, ih, hmax, List.mem_cons, exists_eq_or_imp, or_assoc]

/-! ## One range -/

theorem checkRanges_cons_of_misfit (hfits : range.fits length = false) :
    checkRanges language extractor length reached (range :: rest) =
      ⟨[], .error (.invalidRange language extractor range length)⟩ := by
  rw [checkRanges]
  simp [hfits]
  rfl

theorem checkRanges_cons_of_fits (hfits : range.fits length = true) :
    checkRanges language extractor length reached (range :: rest) =
      ⟨(if range.start < reached then [overlapWarning language extractor range reached] else []) ++
          (checkRanges language extractor length (max reached range.stop) rest).records,
        (checkRanges language extractor length (max reached range.stop) rest).result⟩ := by
  rw [checkRanges]
  by_cases hlt : range.start < reached <;> simp [hfits, hlt]
  rfl

/-! ## The outcome -/

/-- The check objects to the first range that does not fit. -/
theorem result_checkRanges (language : Language) (extractor : String) (length reached : Nat)
    (ranges : List Span) :
    (checkRanges language extractor length reached ranges).result =
      match ranges.find? (!·.fits length) with
      | some range => .error (.invalidRange language extractor range length)
      | none => .ok () := by
  induction ranges generalizing reached with
  | nil => rfl
  | cons range rest ih =>
    cases hfits : range.fits length with
    | false => rw [checkRanges_cons_of_misfit hfits, List.find?_cons_of_pos (by simp [hfits])]
    | true =>
      rw [checkRanges_cons_of_fits hfits, List.find?_cons_of_neg (by simp [hfits])]
      exact ih _

theorem result_checkRanges_eq_error_iff {e : ChainError} :
    (checkRanges language extractor length reached ranges).result = .error e ↔
      ∃ range, FirstMisfit length ranges range ∧
        e = .invalidRange language extractor range length := by
  simp only [← find?_eq_some_iff_firstMisfit]
  rw [result_checkRanges]
  cases ranges.find? (!·.fits length) <;> simp [eq_comm]

theorem result_checkRanges_eq_ok_iff :
    (checkRanges language extractor length reached ranges).result = .ok () ↔
      ∀ range ∈ ranges, range.fits length = true := by
  rw [result_checkRanges]
  cases hfind : ranges.find? (!·.fits length) with
  | none => simpa using hfind
  | some range =>
    have hmisfit := List.find?_some hfind
    have hmem := List.mem_of_find?_eq_some hfind
    refine iff_of_false nofun fun hall => ?_
    simp [hall range hmem] at hmisfit

theorem exists_result_checkRanges_eq_error_iff :
    (∃ e, (checkRanges language extractor length reached ranges).result = .error e) ↔
      ∃ range ∈ ranges, range.stop < range.start ∨ length < range.stop := by
  constructor
  · rintro ⟨e, he⟩
    obtain ⟨range, ⟨before, behind, rfl, -, hmisfit⟩, -⟩ := result_checkRanges_eq_error_iff.1 he
    exact ⟨range, List.mem_append_right _ List.mem_cons_self, hmisfit⟩
  · rintro ⟨range, hmem, hmisfit⟩
    cases h : (checkRanges language extractor length reached ranges).result with
    | error e => exact ⟨e, rfl⟩
    | ok =>
      have hfits := result_checkRanges_eq_ok_iff.1 h range hmem
      rw [Span.fits_eq_false_iff.2 hmisfit] at hfits
      cases hfits

/-! ## The warnings -/

/-- Up to the first range that does not fit there is a warning about each range that starts before
the furthest end of those before it. -/
theorem mem_records_checkRanges_iff {record : Record} :
    record ∈ (checkRanges language extractor length reached ranges).records ↔
      ∃ before range behind, ranges = before ++ range :: behind ∧
        (∀ earlier ∈ before, earlier.fits length = true) ∧ range.fits length = true ∧
        range.start < furthest reached before ∧
        record = overlapWarning language extractor range (furthest reached before) := by
  induction ranges generalizing reached with
  | nil => simp [checkRanges, pure]
  | cons first rest ih =>
    rw [exists_split_cons]
    cases hfits : first.fits length with
    | false =>
      rw [checkRanges_cons_of_misfit hfits]
      -- The first range that does not fit is neither warned about nor passed over.
      refine iff_of_false List.not_mem_nil ?_
      rintro (⟨-, hfirst, -⟩ | ⟨before, range, behind, -, hbefore, -⟩)
      · cases hfirst
      · have hfirst := hbefore first List.mem_cons_self
        rw [hfits] at hfirst
        cases hfirst
    | true =>
      rw [checkRanges_cons_of_fits hfits, List.mem_append, ih, List.mem_ite_nil_right,
        List.mem_singleton]
      simp [hfits, furthest]

/-- There is no warning about ranges that fit if none starts before what was reached, and any two
are in order. -/
theorem records_checkRanges_eq_nil_iff (hfits : ∀ range ∈ ranges, range.fits length = true) :
    (checkRanges language extractor length reached ranges).records = [] ↔
      (∀ range ∈ ranges, reached ≤ range.start) ∧ ranges.Pairwise fun a b => a.stop ≤ b.start := by
  induction ranges generalizing reached with
  | nil => simp [checkRanges, pure]
  | cons first rest ih =>
    obtain ⟨hfirst, hrest⟩ := List.forall_mem_cons.1 hfits
    have hnone : (if first.start < reached then
        [overlapWarning language extractor first reached] else []) = [] ↔
        reached ≤ first.start := by
      simp
    rw [checkRanges_cons_of_fits hfirst, List.append_eq_nil_iff, hnone, ih hrest,
      List.forall_mem_cons, List.pairwise_cons]
    simp only [Nat.max_le, imp_and, forall_and]
    constructor
    · rintro ⟨hstart, ⟨hbehind, hnext⟩, horder⟩
      exact ⟨⟨hstart, hbehind⟩, hnext, horder⟩
    · rintro ⟨⟨hstart, hbehind⟩, hnext, horder⟩
      exact ⟨hstart, ⟨hbehind, hnext⟩, horder⟩

/-- Ranges are accepted without a warning if they fit and any two are in order. -/
theorem checkRanges_eq_pure_iff :
    checkRanges language extractor length 0 ranges = pure () ↔
      (∀ range ∈ ranges, range.fits length = true) ∧
        ranges.Pairwise fun a b => a.stop ≤ b.start := by
  constructor
  · intro h
    have hfits := result_checkRanges_eq_ok_iff.1 (congrArg Logged.result h)
    exact ⟨hfits, ((records_checkRanges_eq_nil_iff hfits).1 (congrArg Logged.records h)).2⟩
  · rintro ⟨hfits, horder⟩
    have hrecords : (checkRanges language extractor length 0 ranges).records = [] :=
      (records_checkRanges_eq_nil_iff hfits).2 ⟨fun range _ => Nat.zero_le _, horder⟩
    exact congr (congrArg Logged.mk hrecords) (result_checkRanges_eq_ok_iff.2 hfits)

end ChainSpec

end Polyglot
