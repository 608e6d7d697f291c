import Mathlib.Data.Nat.Find
import Polyglot.Proofs.Chain.Maps

/-!
# What blanking leaves

The regions of a slice are found by reading it from the front: one begins where the opening marker
first occurs, and ends behind the first closing marker after that or with the slice (`Scan`). The loop
searches a buffer that it overwrites, but from the end of the last region on the buffer is as the
slice was (`Intact`), so a turn finds the next region of the slice (`Intact.step_cases`), and the loop
all of them (`Intact.run`).

Every occurrence of the opening marker in the slice begins in a region (`Scan.within_of_occursAt`). A
region is left with spaces and newlines only. So if the marker has neither, it occurs nowhere in what
is left: there it would have to keep clear of all regions, where nothing has changed.
-/

set_option autoImplicit false

namespace Polyglot

namespace Bytes

variable {bs bs' text : Bytes} {i j lo : Nat}

/-! ## Occurrences -/

/-- The text stands in the bytes from the offset on. -/
def OccursAt (bs text : Bytes) (i : Nat) : Prop :=
  text <+: bs.drop i

instance (bs text : Bytes) (i : Nat) : Decidable (bs.OccursAt text i) :=
  inferInstanceAs (Decidable (text <+: bs.drop i))

/-- The first occurrence of a text from the offset `lo` on. -/
structure First (bs text : Bytes) (lo i : Nat) : Prop where
  behind : lo ≤ i
  occurs : bs.OccursAt text i
  least : ∀ j, lo ≤ j → j < i → ¬ bs.OccursAt text j

theorem occursAt_iff : bs.OccursAt text i ↔ ∀ k (hk : k < text.length), bs[i + k]? = some text[k] := by
  rw [OccursAt, List.prefix_iff_getElem?]
  simp only [List.getElem?_drop]

theorem occursAt_cons {b : UInt8} :
    bs.OccursAt (b :: text) i ↔ bs[i]? = some b ∧ bs.OccursAt text (i + 1) := by
  unfold OccursAt
  by_cases hi : i < bs.length
  · rw [List.drop_eq_getElem_cons hi, List.cons_prefix_cons, List.getElem?_eq_getElem hi,
      Option.some.injEq, eq_comm]
  · rw [List.drop_eq_nil_of_le (by omega), List.getElem?_eq_none (by omega)]
    simp

theorem OccursAt.le_length (h : bs.OccursAt text i) (hne : text ≠ []) :
    i + text.length ≤ bs.length := by
  have hle := h.length_le
  have hpos := List.length_pos_iff.2 hne
  rw [List.length_drop] at hle
  omega

/-- Where a text occurs from an offset on is seen from the bytes behind it. -/
theorem occursAt_congr (h : ∀ k, lo ≤ k → bs[k]? = bs'[k]?) (hi : lo ≤ i) :
    bs.OccursAt text i ↔ bs'.OccursAt text i := by
  rw [occursAt_iff, occursAt_iff]
  exact forall₂_congr fun k _ => by rw [h (i + k) (by omega)]

theorem First.congr (hfirst : bs.First text lo i) (h : ∀ k, lo ≤ k → bs[k]? = bs'[k]?) :
    bs'.First text lo i := by
  obtain ⟨hle, hoccurs, hleast⟩ := hfirst
  refine ⟨hle, (occursAt_congr h hle).1 hoccurs, fun j hj hji hoccurs => ?_⟩
  exact hleast j hj hji ((occursAt_congr h hj).2 hoccurs)

/-- There is but one first occurrence. -/
theorem First.unique (hi : bs.First text lo i) (hj : bs.First text lo j) : i = j := by
  rcases Nat.lt_trichotomy i j with hlt | heq | hlt
  · exact absurd hi.occurs (hj.least i hi.behind hlt)
  · exact heq
  · exact absurd hj.occurs (hi.least j hj.behind hlt)

/-- What occurs somewhere occurs somewhere first. -/
theorem exists_first (hi : lo ≤ i) (hoccurs : bs.OccursAt text i) : ∃ i, bs.First text lo i := by
  have hsome : ∃ i, lo ≤ i ∧ bs.OccursAt text i := ⟨i, hi, hoccurs⟩
  obtain ⟨hle, hfirst⟩ := Nat.find_spec hsome
  exact ⟨Nat.find hsome, hle, hfirst, fun j hj hlt hoccurs => Nat.find_min hsome hlt ⟨hj, hoccurs⟩⟩

theorem infix_iff_exists_occursAt : text <:+: bs ↔ ∃ i, bs.OccursAt text i := by
  constructor
  · rintro ⟨before, behind, rfl⟩
    exact ⟨before.length, by simp [OccursAt]⟩
  · rintro ⟨i, hoccurs⟩
    exact hoccurs.isInfix.trans (List.drop_suffix i bs).isInfix

end Bytes

namespace Blanking

variable {buffer : Array UInt8} {text opening closing slice : Bytes} {c next : Blanking}
  {i lo : Nat} {regions : List Span}

/-! ## The search -/

theorem standsAt_iff : standsAt buffer text i = true ↔ Bytes.OccursAt buffer.toList text i := by
  induction text generalizing i with
  | nil => simp [standsAt, Bytes.OccursAt]
  | cons b text ih =>
    rw [standsAt, Bool.and_eq_true, beq_iff_eq, ih, Bytes.occursAt_cons, Array.getElem?_toList]

/-- A search through `count` offsets finds the first occurrence, if it is among these. -/
theorem search_eq_some_iff {count : Nat} : search buffer text count lo = some i ↔
    Bytes.First buffer.toList text lo i ∧ i < lo + count := by
  induction count generalizing lo with
  | zero =>
    refine ⟨fun h => (nomatch h), fun ⟨hfirst, hlt⟩ => ?_⟩
    have := hfirst.behind
    omega
  | succ count ih =>
    rw [search]
    split
    · next hstands =>
      rw [standsAt_iff] at hstands
      have hhere : Bytes.First buffer.toList text lo lo := ⟨Nat.le_refl _, hstands, by omega⟩
      constructor
      · rintro ⟨⟩
        exact ⟨hhere, by omega⟩
      · rintro ⟨hfirst, -⟩
        rw [hhere.unique hfirst]
    · next hnot =>
      rw [standsAt_iff] at hnot
      rw [ih]
      constructor
      · rintro ⟨⟨hle, hoccurs, hleast⟩, hlt⟩
        refine ⟨⟨by omega, hoccurs, fun j hj hji => ?_⟩, by omega⟩
        rcases Nat.eq_or_lt_of_le hj with rfl | hj
        · exact hnot
        · exact hleast j hj hji
      · rintro ⟨⟨hle, hoccurs, hleast⟩, hlt⟩
        have hne : lo ≠ i := fun heq => hnot (heq ▸ hoccurs)
        exact ⟨⟨by omega, hoccurs, fun j hj => hleast j (by omega)⟩, by omega⟩

/-- What is found is the first occurrence. -/
theorem find?_eq_some_iff : find? buffer text lo = some i ↔
    text ≠ [] ∧ Bytes.First buffer.toList text lo i := by
  unfold find?
  split
  · next hempty => simp_all
  · next hne =>
    have hne : text ≠ [] := by simpa using hne
    rw [search_eq_some_iff]
    refine ⟨fun h => ⟨hne, h.1⟩, fun ⟨_, hfirst⟩ => ⟨hfirst, ?_⟩⟩
    have hle : i + text.length ≤ buffer.size := hfirst.occurs.le_length hne
    have hpos := List.length_pos_iff.2 hne
    have := hfirst.behind
    omega

theorem find?_eq_none_iff (hne : text ≠ []) : find? buffer text lo = none ↔
    ∀ i, lo ≤ i → ¬ Bytes.OccursAt buffer.toList text i := by
  constructor
  · intro hnone i hi hoccurs
    obtain ⟨first, hfirst⟩ := Bytes.exists_first hi hoccurs
    rw [find?_eq_some_iff.2 ⟨hne, hfirst⟩] at hnone
    cases hnone
  · intro hnone
    cases hfound : find? buffer text lo with
    | none => rfl
    | some i =>
      have hfirst := (find?_eq_some_iff.1 hfound).2
      exact absurd hfirst.occurs (hnone i hfirst.behind)

/-! ## Regions -/

/-- Where a region of the slice ends whose opening marker ends at `body`. -/
inductive StopsAt (closing slice : Bytes) (body : Nat) : Nat → Prop
  | closed {i : Nat} (nonempty : closing ≠ []) (first : slice.First closing body i) :
    StopsAt closing slice body (i + closing.length)
  | endless (absent : closing = [] ∨ ∀ i, body ≤ i → ¬ slice.OccursAt closing i) :
    StopsAt closing slice body slice.length

/-- The regions of the slice from an offset on, front first. -/
inductive Scan (opening closing slice : Bytes) : Nat → List Span → Prop
  | done {lo : Nat} (absent : ∀ i, lo ≤ i → ¬ slice.OccursAt opening i) :
    Scan opening closing slice lo []
  | region {lo start stop : Nat} {regions : List Span} (opens : slice.First opening lo start)
      (closes : StopsAt closing slice (start + opening.length) stop)
      (more : Scan opening closing slice stop regions) :
    Scan opening closing slice lo (⟨start, stop⟩ :: regions)

/-- Some region has the offset in it. -/
def Within (regions : List Span) (i : Nat) : Prop :=
  ∃ r ∈ regions, i ∈ r

instance (regions : List Span) (i : Nat) : Decidable (Within regions i) :=
  inferInstanceAs (Decidable (∃ r ∈ regions, i ∈ r))

@[simp] theorem not_within_nil (i : Nat) : ¬ Within [] i := by
  simp [Within]

@[simp] theorem within_cons {r : Span} : Within (r :: regions) i ↔ i ∈ r ∨ Within regions i := by
  simp [Within]

theorem StopsAt.le {body stop : Nat} (h : StopsAt closing slice body stop)
    (hbody : body ≤ slice.length) : body ≤ stop := by
  cases h with
  | closed _ first => exact Nat.le_trans first.behind (Nat.le_add_right _ _)
  | endless => exact hbody

theorem StopsAt.unique {body stop stop' : Nat} (h : StopsAt closing slice body stop)
    (h' : StopsAt closing slice body stop') : stop = stop' := by
  cases h with
  | closed nonempty first =>
    cases h' with
    | closed _ first' => rw [first.unique first']
    | endless absent =>
      exact absurd first.occurs ((absent.resolve_left nonempty) _ first.behind)
  | endless absent =>
    cases h' with
    | closed nonempty first =>
      exact absurd first.occurs ((absent.resolve_left nonempty) _ first.behind)
    | endless => rfl

/-- A slice has only these regions. -/
theorem Scan.unique {regions' : List Span} (h : Scan opening closing slice lo regions)
    (h' : Scan opening closing slice lo regions') : regions = regions' := by
  induction h generalizing regions' with
  | done absent =>
    cases h' with
    | done => rfl
    | region opens => exact absurd opens.occurs (absent _ opens.behind)
  | region opens closes _ ih =>
    cases h' with
    | done absent => exact absurd opens.occurs (absent _ opens.behind)
    | region opens' closes' more' =>
      obtain rfl := opens.unique opens'
      obtain rfl := closes.unique closes'
      rw [ih more']

/-- Every occurrence of the opening marker begins in a region. -/
theorem Scan.within_of_occursAt (h : Scan opening closing slice lo regions) (hi : lo ≤ i)
    (hoccurs : slice.OccursAt opening i) : Within regions i := by
  induction h with
  | done absent => exact absurd hoccurs (absent i hi)
  | @region lo start stop regions opens closes more ih =>
    rw [within_cons, Span.mem_iff]
    by_cases hstart : i < start
    · exact absurd hoccurs (opens.least i hi hstart)
    · by_cases hstop : i < stop
      · exact .inl ⟨Nat.le_of_not_lt hstart, hstop⟩
      · exact .inr (ih (Nat.le_of_not_lt hstop))

/-! ## The loop -/

@[simp] theorem blank_newline : blank Bytes.newline = Bytes.newline := rfl

theorem blank_of_ne {b : UInt8} (h : b ≠ Bytes.newline) : blank b = Bytes.space := by
  simp [blank, h]

theorem blank_eq_or (b : UInt8) : blank b = Bytes.newline ∨ blank b = Bytes.space := by
  by_cases hb : b = Bytes.newline
  · exact .inl (by rw [hb, blank_newline])
  · exact .inr (blank_of_ne hb)

@[simp] theorem blank_blank (b : UInt8) : blank (blank b) = blank b := by
  rcases blank_eq_or b with h | h <;> rw [h] <;> rfl

theorem blank_eq_newline_iff {b : UInt8} : blank b = Bytes.newline ↔ b = Bytes.newline := by
  by_cases hb : b = Bytes.newline
  · simp [hb]
  · have hne : Bytes.space ≠ Bytes.newline := by decide
    simp [blank_of_ne hb, hb, hne]

/-- The bytes that are blank already stay as they are. -/
theorem blank_ne_iff {b : UInt8} : blank b ≠ b ↔ b ≠ Bytes.newline ∧ b ≠ Bytes.space := by
  by_cases hb : b = Bytes.newline
  · simp [hb]
  · rw [blank_of_ne hb]
    exact ⟨fun h => ⟨hb, h.symm⟩, fun h => h.2.symm⟩

theorem getElem?_blankFrom (buffer : Array UInt8) (count offset i : Nat) :
    (blankFrom buffer count offset)[i]? =
      if offset ≤ i ∧ i < offset + count then buffer[i]?.map blank else buffer[i]? := by
  induction count generalizing buffer offset with
  | zero => simp [blankFrom, show ¬ (offset ≤ i ∧ i < offset) by omega]
  | succ count ih =>
    rw [blankFrom, ih, Array.getElem?_modify]
    by_cases hi : offset = i
    · rw [if_pos hi, if_neg (by omega), if_pos (by omega)]
    · rw [if_neg hi]
      congr 1
      rw [eq_iff_iff]
      omega

/-- From where the search goes on the buffer is as the slice was. -/
structure Intact (slice : Bytes) (c : Blanking) : Prop where
  size : c.buffer.size = slice.length
  same : ∀ i, c.next ≤ i → c.buffer.toList[i]? = slice[i]?

theorem intact_ofSlice (slice : Bytes) : (ofSlice slice).Intact slice :=
  ⟨rfl, fun _ _ => rfl⟩

/-- A region stops where the loop has it stop. -/
theorem Intact.stopsAt (h : c.Intact slice) (closing : Bytes) {body : Nat} (hbody : c.next ≤ body) :
    StopsAt closing slice body (stopOf c.buffer closing body) := by
  have hsame : ∀ i, body ≤ i → c.buffer.toList[i]? = slice[i]? :=
    fun i hi => h.same i (Nat.le_trans hbody hi)
  unfold stopOf
  split
  · next i hfound =>
    obtain ⟨hne, hfirst⟩ := find?_eq_some_iff.1 hfound
    exact .closed hne (hfirst.congr hsame)
  · next hnone =>
    rw [h.size]
    refine .endless ?_
    by_cases hne : closing = []
    · exact .inl hne
    · refine .inr fun i hi hoccurs => ?_
      exact (find?_eq_none_iff hne).1 hnone i hi ((Bytes.occursAt_congr hsame hi).2 hoccurs)

/-- A turn blanks the next region of the slice and goes on behind it, or there is none. -/
theorem Intact.step_cases (h : c.Intact slice) (hopening : opening ≠ []) (closing : Bytes) :
    (c.step opening closing = none ∧ ∀ i, c.next ≤ i → ¬ slice.OccursAt opening i) ∨
      ∃ start stop, slice.First opening c.next start ∧
        StopsAt closing slice (start + opening.length) stop ∧
        c.step opening closing = some ⟨blankFrom c.buffer (stop - start) start, stop⟩ ∧
        Intact slice ⟨blankFrom c.buffer (stop - start) start, stop⟩ := by
  rw [step_eq]
  cases hfound : find? c.buffer opening c.next with
  | none =>
    left
    refine ⟨rfl, fun i hi hoccurs => ?_⟩
    exact (find?_eq_none_iff hopening).1 hfound i hi ((Bytes.occursAt_congr h.same hi).2 hoccurs)
  | some start =>
    right
    have hfirst := (find?_eq_some_iff.1 hfound).2.congr h.same
    have hpos := List.length_pos_iff.2 hopening
    have hbehind := hfirst.behind
    have hstops := h.stopsAt closing (show c.next ≤ start + opening.length by omega)
    have hle := hstops.le (hfirst.occurs.le_length hopening)
    refine ⟨start, stopOf c.buffer closing (start + opening.length), hfirst, hstops, ?_, ?_, ?_⟩
    · have hmax : max (stopOf c.buffer closing (start + opening.length)) (start + 1) =
          stopOf c.buffer closing (start + opening.length) := by omega
      simp only [Option.map_some, hmax]
    · rw [size_blankFrom, h.size]
    · intro i hi
      simp only at hi
      rw [Array.getElem?_toList, getElem?_blankFrom, if_neg (by omega), ← Array.getElem?_toList]
      exact h.same i (by omega)

/-- The loop blanks the regions of the slice, and nothing else. -/
theorem Intact.run (h : c.Intact slice) (hopening : opening ≠ []) (closing : Bytes) :
    ∃ regions, Scan opening closing slice c.next regions ∧
      ∀ i, (c.run opening closing)[i]? =
        if Within regions i then c.buffer[i]?.map blank else c.buffer[i]? := by
  generalize hleft : c.remaining = left
  induction left using Nat.strongRecOn generalizing c with
  | ind left ih =>
    rcases h.step_cases hopening closing with
      ⟨hstep, habsent⟩ | ⟨start, stop, hopens, hcloses, hstep, hintact⟩
    · refine ⟨[], .done habsent, fun i => ?_⟩
      rw [run_of_step_none hstep, if_neg (not_within_nil i)]
    · have hless := remaining_of_step hstep
      obtain ⟨regions, hscan, hrun⟩ := ih _ (hleft ▸ hless) hintact rfl
      refine ⟨⟨start, stop⟩ :: regions, .region hopens hcloses hscan, fun i => ?_⟩
      have hin : start ≤ i ∧ i < start + (stop - start) ↔ i ∈ (⟨start, stop⟩ : Span) := by
        rw [Span.mem_iff]
        simp only
        omega
      rw [run_of_step hstep, hrun i, getElem?_blankFrom]
      simp only [hin, within_cons]
      -- To blank a byte twice is to blank it once.
      by_cases hregion : i ∈ (⟨start, stop⟩ : Span) <;> by_cases hmore : Within regions i <;>
        simp [hregion, hmore, Function.comp_def]

/-- What the loop leaves of a slice. -/
theorem exists_run (hopening : opening ≠ []) (closing slice : Bytes) :
    ∃ regions, Scan opening closing slice 0 regions ∧
      ∀ i, ((ofSlice slice).run opening closing).toList[i]? =
        if Within regions i then slice[i]?.map blank else slice[i]? := by
  obtain ⟨regions, hscan, hrun⟩ := (intact_ofSlice slice).run hopening closing
  refine ⟨regions, hscan, fun i => ?_⟩
  have hsame : (ofSlice slice).buffer[i]? = slice[i]? := by
    rw [← Array.getElem?_toList]
    rfl
  rw [Array.getElem?_toList, hrun i, hsame]

-- The closing marker is looked for behind the opening one, so that the two share no byte.
example : ((ofSlice (Bytes.ofString "<!>x!>y")).run (Bytes.ofString "<!")
    (Bytes.ofString "!>")).toList = Bytes.ofString "      y" := by
  decide +kernel

/-! ## What is left -/

/-- The bytes are those of the slice, but for the regions, which are blank. -/
def Left (regions : List Span) (slice out : Bytes) : Prop :=
  ∀ i, out[i]? = if Within regions i then slice[i]?.map blank else slice[i]?

namespace Left

variable {out : Bytes}

theorem length (h : Left regions slice out) : out.length = slice.length := by
  have hnone : ∀ i : Nat, out[i]? = none ↔ slice[i]? = none := by
    intro i
    rw [h i]
    split <;> simp
  simp only [List.getElem?_eq_none_iff] at hnone
  have := (hnone out.length).1 (Nat.le_refl _)
  have := (hnone slice.length).2 (Nat.le_refl _)
  omega

theorem newline_iff (h : Left regions slice out) (i : Nat) :
    out[i]? = some Bytes.newline ↔ slice[i]? = some Bytes.newline := by
  rw [h i]
  split
  · simp [Option.map_eq_some_iff, blank_eq_newline_iff]
  · rfl

/-- Just the bytes of the regions change that are not blank already. -/
theorem ne_iff (h : Left regions slice out) {b : UInt8} (hb : slice[i]? = some b) :
    (out[i]? ≠ some b) ↔ Within regions i ∧ b ≠ Bytes.newline ∧ b ≠ Bytes.space := by
  rw [h i, hb, ← blank_ne_iff]
  split <;> simp [*]

theorem space_of_ne (h : Left regions slice out) {b : UInt8} (hb : slice[i]? = some b)
    (hne : out[i]? ≠ some b) : out[i]? = some Bytes.space := by
  obtain ⟨hin, hnewline, -⟩ := (h.ne_iff hb).1 hne
  rw [h i, if_pos hin, hb, Option.map_some, blank_of_ne hnewline]

/-- A text without spaces and newlines occurs only where nothing has changed. -/
theorem occursAt (h : Left regions slice out) {text : Bytes} (hspace : Bytes.space ∉ text)
    (hnewline : Bytes.newline ∉ text) (hoccurs : out.OccursAt text i) :
    slice.OccursAt text i ∧ ∀ k < text.length, ¬ Within regions (i + k) := by
  rw [Bytes.occursAt_iff] at hoccurs ⊢
  have hclear : ∀ k < text.length, ¬ Within regions (i + k) := by
    intro k hk hin
    have hbyte := hoccurs k hk
    rw [h, if_pos hin] at hbyte
    obtain ⟨b, -, hb⟩ := Option.map_eq_some_iff.1 hbyte
    have hmem := List.getElem_mem hk
    rw [← hb] at hmem
    rcases blank_eq_or b with heq | heq
    · exact hnewline (heq ▸ hmem)
    · exact hspace (heq ▸ hmem)
  refine ⟨fun k hk => ?_, hclear⟩
  rw [← hoccurs k hk, h, if_neg (hclear k hk)]

/-- Nothing is left of an opening marker without spaces and newlines. -/
theorem not_occursAt (h : Left regions slice out) (hscan : Scan opening closing slice 0 regions)
    (hopening : opening ≠ []) (hspace : Bytes.space ∉ opening) (hnewline : Bytes.newline ∉ opening)
    (i : Nat) : ¬ out.OccursAt opening i := by
  intro hoccurs
  obtain ⟨hslice, hclear⟩ := h.occursAt hspace hnewline hoccurs
  exact hclear 0 (List.length_pos_iff.2 hopening) (hscan.within_of_occursAt (Nat.zero_le i) hslice)

/-- Without regions everything is left as it is. -/
theorem eq (h : Left [] slice out) : out = slice := by
  apply List.ext_getElem?
  intro i
  rw [h i, if_neg (not_within_nil i)]

end Left

end Blanking

/-- Bytes as many as those of the slice stand place for place. -/
theorem Edit.positional_of_length {bytes : Bytes} {n : Nat} (h : bytes.length = n) :
    Edit.positional bytes n = ⟨bytes, OffsetMap.identity n⟩ := by
  simp [Edit.positional, h, OffsetMap.ofSegments, OffsetMap.identity, OffsetMap.shifted]

namespace Editor

open Blanking in
/-- Blanking gives a result for every slice: the regions, blanked. -/
theorem exists_blankDelimited {opening : Bytes} (hopening : opening ≠ []) (closing slice : Bytes) :
    ∃ out regions, Scan opening closing slice 0 regions ∧ Left regions slice out ∧
      ∀ parent, (blankDelimited opening closing).edit slice parent =
        .ok ⟨out, OffsetMap.identity slice.length⟩ := by
  obtain ⟨regions, hscan, hleft⟩ := exists_run hopening closing slice
  refine ⟨_, regions, hscan, hleft, fun parent => ?_⟩
  have hempty : ¬opening.isEmpty = true := by simpa using hopening
  rw [← Edit.positional_of_length (Left.length hleft)]
  exact if_neg hempty

open Blanking in
/-- Blanking keeps every offset in place and leaves no region. It gives a result for every slice, with
the identity as its map and newlines where the slice has them. What changes are the bytes of the
regions of the slice that are not blank already, and they become spaces. If the opening marker has no
space and no newline in it, it occurs nowhere in what is left, and to blank that again changes
nothing. -/
theorem blankDelimited_blanks {opening : Bytes} (hopening : opening ≠ []) (closing slice : Bytes)
    (parent : SyntaxTree) :
    ∃ (edit : Edit) (regions : List Span),
      (blankDelimited opening closing).edit slice parent = .ok edit ∧
      edit.map = OffsetMap.identity slice.length ∧
      edit.bytes.length = slice.length ∧
      (∀ i : Nat, edit.bytes[i]? = some Bytes.newline ↔ slice[i]? = some Bytes.newline) ∧
      (Scan opening closing slice 0 regions ∧
        ∀ others, Scan opening closing slice 0 others → others = regions) ∧
      (∀ (i : Nat) (b : UInt8), slice[i]? = some b →
        (edit.bytes[i]? ≠ some b ↔ Within regions i ∧ b ≠ Bytes.newline ∧ b ≠ Bytes.space) ∧
        (edit.bytes[i]? ≠ some b → edit.bytes[i]? = some Bytes.space)) ∧
      (Bytes.space ∉ opening → Bytes.newline ∉ opening →
        ¬ opening <:+: edit.bytes ∧
        ∀ parent', (blankDelimited opening closing).edit edit.bytes parent' =
          .ok (Edit.unchanged edit.bytes)) := by
  obtain ⟨out, regions, hscan, hleft, hedit⟩ := exists_blankDelimited hopening closing slice
  refine ⟨_, regions, hedit parent, rfl, hleft.length, hleft.newline_iff,
    ⟨hscan, fun others hothers => hothers.unique hscan⟩,
    fun i b hb => ⟨hleft.ne_iff hb, hleft.space_of_ne hb⟩, fun hspace hnewline => ?_⟩
  have hnone := hleft.not_occursAt hscan hopening hspace hnewline
  refine ⟨fun hinfix => ?_, fun parent' => ?_⟩
  · obtain ⟨i, hoccurs⟩ := Bytes.infix_iff_exists_occursAt.1 hinfix
    exact hnone i hoccurs
  · obtain ⟨out', regions', hscan', hleft', hedit'⟩ :=
      exists_blankDelimited hopening closing out
    obtain rfl := hscan'.unique (.done fun i _ => hnone i)
    rw [hedit' parent', hleft'.eq]
    rfl

/-- Of two regions, one over two lines and one that is not closed, spaces and a newline are left. -/
theorem blankDelimited_blanks_tags :
    Bytes.ofString "<%" ≠ [] ∧
    ∃ (edit : Edit) (regions : List Span),
      (blankDelimited (Bytes.ofString "<%") (Bytes.ofString "%>")).edit
        (Bytes.ofString "a<%b\nc%>d<%e") Sample.pageTree = .ok edit ∧
      edit.bytes = Bytes.ofString "a   \n   d   " ∧ edit.map = OffsetMap.identity 12 ∧
      (Blanking.Within regions 11 ∧ ¬ Blanking.Within regions 8) ∧
      ¬ Bytes.ofString "<%" <:+: edit.bytes ∧
      (blankDelimited (Bytes.ofString "<%") (Bytes.ofString "%>")).edit edit.bytes
        Sample.pageTree = .ok (Edit.unchanged edit.bytes) := by
  have hopening : Bytes.ofString "<%" ≠ [] := by decide +kernel
  obtain ⟨edit, regions, hedit, hmap, -, -, -, hchanged, hgone⟩ :=
    blankDelimited_blanks hopening (Bytes.ofString "%>") (Bytes.ofString "a<%b\nc%>d<%e")
      Sample.pageTree
  have hbytes : edit.bytes = Bytes.ofString "a   \n   d   " := by
    have hsome := congrArg (fun result => result.toOption.map (·.bytes)) hedit
    refine (Option.some.inj ?_).symm
    rw [← show _ = some edit.bytes from hsome]
    decide +kernel
  have hwithin := ((hchanged 11 101 (by decide +kernel)).1.1 (by rw [hbytes]; decide +kernel)).1
  have hclear : ¬ Blanking.Within regions 8 := by
    intro hin
    have hne := (hchanged 8 100 (by decide +kernel)).1.2 ⟨hin, by decide, by decide⟩
    exact hne (by rw [hbytes]; decide +kernel)
  obtain ⟨hnowhere, hagain⟩ := hgone (by decide +kernel) (by decide +kernel)
  exact ⟨hopening, edit, regions, hedit, hbytes, hmap, ⟨hwithin, hclear⟩, hnowhere, hagain _⟩

end Editor

end Polyglot
