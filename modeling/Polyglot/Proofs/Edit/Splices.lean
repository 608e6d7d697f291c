import Mathlib.Data.List.Chain
import Polyglot.Proofs.Edit.Maps

/-!
# Lists of splices

A list of splices can be applied when every span lies in the slice and none starts before the
span in front of it stops; the first splice that breaks this is the one reported
(`splice_error_iff`). What comes of splices that can be applied is measured against `spliced`, which
replaces one span after the other in the whole slice, the last one first, so that no offset ever has
to be moved. The bytes are those (`bytes_splice`), and the segments that are not linear are the
splices themselves, without those that put in nothing for nothing (`replaced_splice`).
-/

set_option autoImplicit false

namespace Polyglot

theorem Bytes.slice_append {a b c : Bytes} :
    Bytes.slice (a ++ b ++ c) a.length (a.length + b.length) = b := by
  unfold Bytes.slice
  rw [← List.length_append, List.take_left, List.drop_left]

namespace Splice

/-- The spans lie within so many bytes, and one behind the other from a cursor on. -/
def InOrder (length : Nat) : Nat → List Splice → Prop
  | _, [] => True
  | cursor, s :: rest =>
    s.span.fits length = true ∧ cursor ≤ s.span.start ∧ InOrder length s.span.stop rest

/-- The spans lie within so many bytes, and none starts before the one in front of it stops. -/
def Applicable (length : Nat) (splices : List Splice) : Prop :=
  (∀ s ∈ splices, s.span.fits length = true) ∧
    splices.IsChain fun s t => s.span.stop ≤ t.span.start

instance (length : Nat) (splices : List Splice) : Decidable (Applicable length splices) :=
  inferInstanceAs (Decidable (_ ∧ _))

/-- How far the slice is used up behind some splices. -/
def reached (cursor : Nat) (splices : List Splice) : Nat :=
  (splices.getLast?.map (·.span.stop)).getD cursor

/-- What is wrong with a splice: it lies outside, or else it starts in what is used up. -/
inductive Offends (length cursor : Nat) (s : Splice) : SpliceError → Prop where
  | outside (h : s.span.fits length = false) : Offends length cursor s (.outOfBounds s.span length)
  | early (h : s.span.fits length = true) (hlt : s.span.start < cursor) :
      Offends length cursor s (.unordered s.span.start cursor)

/-- The bytes with the replacement in the place of the span. -/
def applyTo (s : Splice) (bs : Bytes) : Bytes :=
  bs.take s.span.start ++ s.replacement ++ bs.drop s.span.stop

/-- The slice with every span replaced, the last one first. -/
def spliced (slice : Bytes) (splices : List Splice) : Bytes :=
  splices.foldr applyTo slice

variable {length cursor : Nat} {s : Splice} {splices rest : List Splice} {slice : Bytes}

theorem inOrder_iff : InOrder length cursor splices ↔
    Applicable length splices ∧ ∀ s ∈ splices.head?, cursor ≤ s.span.start := by
  unfold Applicable
  induction splices generalizing cursor with
  | nil => simp [InOrder]
  | cons s rest ih =>
    rw [InOrder, ih, List.isChain_cons, List.forall_mem_cons, List.head?_cons]
    simp only [Option.mem_some_iff, forall_eq']
    tauto

theorem inOrder_zero_iff : InOrder length 0 splices ↔ Applicable length splices := by
  rw [inOrder_iff]
  exact and_iff_left fun s _ => Nat.zero_le _

theorem reached_cons (cursor : Nat) (s : Splice) (rest : List Splice) :
    reached cursor (s :: rest) = reached s.span.stop rest := by
  unfold reached
  rw [List.getLast?_cons]
  cases rest.getLast? <;> rfl

/-- A splice offends or can be applied next. -/
theorem offends_or_fits (length cursor : Nat) (s : Splice) :
    (∃ error, s.Offends length cursor error) ∨
      s.span.fits length = true ∧ cursor ≤ s.span.start := by
  cases hfits : s.span.fits length with
  | false => exact .inl ⟨_, .outside hfits⟩
  | true =>
    rcases Nat.lt_or_ge s.span.start cursor with hlt | hge
    · exact .inl ⟨_, .early hfits hlt⟩
    · exact .inr ⟨rfl, hge⟩

/-- What stands before the first span is as it was. -/
theorem take_spliced (h : InOrder slice.length cursor splices) (hcursor : cursor ≤ slice.length)
    {k : Nat} (hk : k ≤ cursor) : (spliced slice splices).take k = slice.take k := by
  induction splices generalizing cursor k with
  | nil => rfl
  | cons s rest ih =>
    obtain ⟨hfits, hordered, hrest⟩ := h
    obtain ⟨hup, hstop⟩ := Span.fits_iff.1 hfits
    show (applyTo s (spliced slice rest)).take k = _
    unfold applyTo
    rw [ih hrest hstop hup, List.append_assoc, List.take_append_of_le_length, List.take_take,
      Nat.min_eq_left (Nat.le_trans hk hordered)]
    rw [List.length_take]
    omega

/-- Behind a cursor the bytes are those up to the next span, its replacement, and what stands
behind it once the other spans are replaced. -/
theorem drop_spliced_cons (h : InOrder slice.length cursor (s :: rest)) :
    (spliced slice (s :: rest)).drop cursor =
      slice.slice cursor s.span.start ++ s.replacement ++
        (spliced slice rest).drop s.span.stop := by
  obtain ⟨hfits, hordered, hrest⟩ := h
  obtain ⟨hup, hstop⟩ := Span.fits_iff.1 hfits
  show (applyTo s (spliced slice rest)).drop cursor = _
  unfold applyTo
  rw [take_spliced hrest hstop hup, List.append_assoc, List.drop_append_of_le_length,
    ← List.append_assoc]
  · rfl
  · rw [List.length_take]
    omega

end Splice

namespace Edit

variable {slice : Bytes} {splices rest : List Splice} {cursor written : Nat} {s : Splice}
  {out : Bytes × List Segment} {error : SpliceError}

/-! ## When splices can be applied -/

/-- A splice that fits is a copy up to it and its replacement, and then the rest follows. -/
theorem splice_cons (hfits : s.span.fits slice.length = true) (hordered : cursor ≤ s.span.start)
    (written : Nat) (rest : List Splice) :
    ∃ kept put, kept = copy slice cursor s.span.start written ∧
      put = replace s (written + kept.1.length) ∧
      splice slice cursor written (s :: rest) =
        (splice slice s.span.stop (written + kept.1.length + put.1.length) rest).map fun more =>
          (kept.1 ++ put.1 ++ more.1, kept.2 ++ put.2 ++ more.2) := by
  refine ⟨_, _, rfl, rfl, ?_⟩
  rw [splice_cons_eq, if_neg (by simp [hfits]), if_neg (Nat.not_lt_of_le hordered)]

/-- A splice that offends is reported. -/
theorem splice_of_offends (h : s.Offends slice.length cursor error) :
    splice slice cursor written (s :: rest) = .error error := by
  cases h with
  | outside hfits => rw [splice_cons_eq, if_pos (by simp [hfits])]
  | early hfits hlt => rw [splice_cons_eq, if_neg (by simp [hfits]), if_pos hlt]

theorem exists_splice (h : Splice.InOrder slice.length cursor splices) (written : Nat) :
    ∃ out, splice slice cursor written splices = .ok out := by
  induction splices generalizing cursor written with
  | nil => exact ⟨_, rfl⟩
  | cons s rest ih =>
    obtain ⟨hfits, hordered, hrest⟩ := h
    obtain ⟨kept, put, -, -, heq⟩ := splice_cons hfits hordered written rest
    obtain ⟨more, hmore⟩ := ih hrest (written + kept.1.length + put.1.length)
    rw [heq, hmore]
    exact ⟨_, rfl⟩

/-- Splices that are in order within a slice can be applied to it. -/
theorem exists_ofSplices (h : Splice.InOrder slice.length 0 splices) :
    ∃ e, ofSplices slice splices = .ok e := by
  obtain ⟨⟨bytes, segments⟩, hout⟩ := exists_splice h 0
  exact ⟨_, by rw [ofSplices_eq, hout]; rfl⟩

/-- Splices that are applied are in order. -/
theorem inOrder_of_splice (h : splice slice cursor written splices = .ok out) :
    Splice.InOrder slice.length cursor splices := by
  induction splices generalizing cursor written out with
  | nil => trivial
  | cons s rest ih =>
    obtain ⟨hup, hstop, hordered, kept, put, more, -, -, hmore, -⟩ := splice_cons_ok h
    exact ⟨Span.fits_iff.2 ⟨hup, hstop⟩, hordered, ih hmore⟩

/-- The first splice that offends is the one reported. -/
theorem splice_error_iff (written : Nat) : splice slice cursor written splices = .error error ↔
    ∃ before s behind, splices = before ++ s :: behind ∧
      Splice.InOrder slice.length cursor before ∧
      s.Offends slice.length (Splice.reached cursor before) error := by
  constructor
  · intro h
    induction splices generalizing cursor written with
    | nil => cases h
    | cons s rest ih =>
      rcases Splice.offends_or_fits slice.length cursor s with ⟨e, he⟩ | ⟨hfits, hordered⟩
      · rw [splice_of_offends he] at h
        obtain rfl := Except.error.inj h
        exact ⟨[], s, rest, rfl, trivial, he⟩
      · obtain ⟨kept, put, -, -, heq⟩ := splice_cons hfits hordered written rest
        rw [heq] at h
        cases hmore : splice slice s.span.stop (written + kept.1.length + put.1.length) rest with
        | ok more =>
          rw [hmore] at h
          cases h
        | error e =>
          rw [hmore] at h
          obtain rfl := Except.error.inj h
          obtain ⟨before, t, behind, rfl, hbefore, hoffends⟩ := ih _ hmore
          refine ⟨s :: before, t, behind, rfl, ⟨hfits, hordered, hbefore⟩, ?_⟩
          rwa [Splice.reached_cons]
  · rintro ⟨before, s, behind, rfl, hbefore, hoffends⟩
    induction before generalizing cursor written with
    | nil => exact splice_of_offends hoffends
    | cons t before ih =>
      obtain ⟨hfits, hordered, hbefore⟩ := hbefore
      rw [Splice.reached_cons] at hoffends
      obtain ⟨kept, put, -, -, heq⟩ :=
        splice_cons hfits hordered written (before ++ s :: behind)
      rw [List.cons_append, heq, ih _ hbefore hoffends]
      rfl

/-! ## What splices give -/

theorem bytes_copy (slice : Bytes) (cursor stop written : Nat) :
    (copy slice cursor stop written).1 = slice.slice cursor stop := by
  rw [copy_eq]
  split
  · rfl
  · next hge =>
    apply Eq.symm
    apply List.drop_eq_nil_of_le
    rw [List.length_take]
    omega

theorem bytes_replace (s : Splice) (written : Nat) : (replace s written).1 = s.replacement := by
  unfold replace
  split
  · next hvoid =>
    simp only [Splice.isVoid, Bool.and_eq_true, List.isEmpty_iff] at hvoid
    exact hvoid.2.symm
  · rfl

/-- From the cursor on the bytes are those of the slice with its spans replaced. -/
theorem bytes_splice (h : splice slice cursor written splices = .ok out) :
    out.1 = (Splice.spliced slice splices).drop cursor := by
  induction splices generalizing cursor written out with
  | nil =>
    obtain rfl : copy slice cursor slice.length written = out := by simpa using h
    rw [bytes_copy]
    exact congrArg (List.drop cursor) List.take_length
  | cons s rest ih =>
    have horder := inOrder_of_splice h
    obtain ⟨-, -, -, kept, put, more, rfl, rfl, hmore, rfl⟩ := splice_cons_ok h
    rw [Splice.drop_spliced_cons horder, ← ih hmore, bytes_copy, bytes_replace]

/-- The segments that are not linear. -/
def replacements (segments : List Segment) : List Segment :=
  segments.filter fun g => !g.linear

theorem replacements_append (a b : List Segment) :
    replacements (a ++ b) = replacements a ++ replacements b :=
  List.filter_append a b

theorem replacements_copy (slice : Bytes) (cursor stop written : Nat) :
    replacements (copy slice cursor stop written).2 = [] := by
  rw [copy_eq]
  split <;> rfl

/-- Read off from bytes in which those written stand at their place, the segments that are not
linear are the splices that are not void: the span of each is the target, and the replacement is
what was parsed. -/
theorem replaced_splice (h : splice slice cursor written splices = .ok out) {before : Bytes}
    (hwritten : before.length = written) (behind : Bytes) :
    ((replacements out.2).map fun g =>
        (g.target, (before ++ out.1 ++ behind).slice g.parsed.start g.parsed.stop)) =
      (splices.filter fun s => !s.isVoid).map fun s => (s.span, s.replacement) := by
  induction splices generalizing cursor written out before with
  | nil =>
    obtain rfl : copy slice cursor slice.length written = out := by simpa using h
    rw [replacements_copy]
    rfl
  | cons s rest ih =>
    obtain ⟨-, -, -, kept, put, more, hkept, hput, hmore, rfl⟩ := splice_cons_ok h
    have hmiddle : (before ++ kept.1 ++ put.1).length =
        written + kept.1.length + put.1.length := by
      rw [List.length_append, List.length_append, hwritten]
    have hrest := ih hmore hmiddle
    have hwhole : before ++ (kept.1 ++ put.1 ++ more.1) ++ behind =
        before ++ kept.1 ++ put.1 ++ more.1 ++ behind := by
      simp only [List.append_assoc]
    simp only [replacements_append, List.map_append, hwhole]
    rw [hrest, hkept, replacements_copy, List.map_nil, List.nil_append, ← hkept, hput]
    unfold replace
    cases hvoid : s.isVoid with
    | true => simp [replacements, hvoid]
    | false =>
      have hslice : Bytes.slice (before ++ kept.1 ++ s.replacement ++ (more.1 ++ behind))
          (written + kept.1.length) (written + kept.1.length + s.replacement.length) =
            s.replacement := by
        rw [← hwritten, ← List.length_append]
        exact Bytes.slice_append
      simpa [replacements, hvoid, Segment.replaced] using hslice

/-! ## The edit -/

/-- The edit carries the splices out: its bytes are the slice with the spans replaced, its segments
tile them and lead to tiles of the slice, a linear segment holds the bytes it leads to, and the
others are the splices that are not void, each with its span and its replacement. -/
structure CarriesOut (slice : Bytes) (splices : List Splice) (e : Edit) : Prop where
  bytes : e.bytes = Splice.spliced slice splices
  parsedLength : e.map.parsedLength = e.bytes.length
  parsed : Span.Tiles 0 e.bytes.length (e.map.segments.map (·.parsed))
  target : Span.Tiles 0 slice.length (e.map.segments.map (·.target))
  copied : ∀ g ∈ e.map.segments, g.linear = true →
    e.bytes.slice g.parsed.start g.parsed.stop = slice.slice g.target.start g.target.stop
  replaced : ((replacements e.map.segments).map fun g =>
      (g.target, e.bytes.slice g.parsed.start g.parsed.stop)) =
    (splices.filter fun s => !s.isVoid).map fun s => (s.span, s.replacement)

/-- The bytes of a linear segment are those of its target. -/
theorem Laid.slice_target {stop : Nat} (h : Laid slice cursor stop 0 out)
    {g : Segment} (hg : g ∈ out.2) (hlin : g.linear = true) :
    out.1.slice g.parsed.start g.parsed.stop = slice.slice g.target.start g.target.stop := by
  have hlength := h.copied g hg hlin
  obtain ⟨-, hup, -⟩ := h.parsed.of_mem (List.mem_map.2 ⟨g, hg, rfl⟩)
  obtain ⟨-, hup', -⟩ := h.target.of_mem (List.mem_map.2 ⟨g, hg, rfl⟩)
  unfold Span.length at hlength
  apply List.ext_getElem?
  intro k
  simp only [Bytes.slice, List.getElem?_drop]
  by_cases hk : g.parsed.start + k < g.parsed.stop
  · rw [List.getElem?_take_of_lt hk, List.getElem?_take_of_lt (by omega)]
    have hbyte := h.bytes g hg hlin (g.parsed.start + k) ⟨Nat.le_add_right _ _, hk⟩
    simpa [Segment.image, hlin] using hbyte
  · rw [List.getElem?_take_eq_none (by omega), List.getElem?_take_eq_none (by omega)]

/-- What splicing lays out from the front on carries the splices out. -/
theorem carriesOut_of_splice (h : splice slice 0 0 splices = .ok out) :
    CarriesOut slice splices ⟨out.1, OffsetMap.ofSegments out.2⟩ := by
  have hlaid := laid_splice (Nat.zero_le _) h
  have hbytes := bytes_splice h
  have hreplaced := replaced_splice h List.length_nil []
  have hparsed : Span.Tiles 0 out.1.length (out.2.map (·.parsed)) := by simpa using hlaid.parsed
  rw [List.nil_append, List.append_nil] at hreplaced
  cases hsegments : out.2 with
  | nil =>
    -- Without segments there are no bytes on either side, and the map is the empty one.
    rw [hsegments] at hparsed hreplaced
    have hlength : 0 = out.1.length := hparsed
    have htarget := hlaid.target
    rw [hsegments] at htarget
    have htarget : 0 = slice.length := htarget
    refine ⟨hbytes, hlength, ?_, ?_, ?_, hreplaced⟩
    · rw [← hlength]
      exact ⟨rfl, Nat.le_refl 0, rfl⟩
    · rw [← htarget]
      exact ⟨rfl, Nat.le_refl 0, rfl⟩
    · intro g hg _
      obtain rfl := List.mem_singleton.1 hg
      simp [Segment.copied, Span.length, Bytes.slice]
  | cons g rest =>
    have hmap := OffsetMap.segments_ofSegments (List.ne_nil_of_mem (hsegments ▸ List.mem_cons_self))
    rw [← hsegments]
    constructor
    · exact hbytes
    · exact (OffsetMap.tiles_ofSegments hparsed).1
    · rw [hmap]
      exact hparsed
    · rw [hmap]
      exact hlaid.target
    · rw [hmap]
      intro g hg hlin
      exact hlaid.slice_target hg hlin
    · rw [hmap]
      exact hreplaced

/-- Splices can be applied exactly when every span lies in the slice and none starts before the one
in front of it stops; otherwise the first that does not is reported, as lying outside if it does and
else as coming too early. The edit that comes of splices that can be applied carries them out. -/
theorem carriesOut_of_ofSplices (slice : Bytes) (splices : List Splice) :
    ((∃ e, ofSplices slice splices = .ok e) ↔ Splice.Applicable slice.length splices) ∧
    (∀ error, ofSplices slice splices = .error error ↔
      ∃ before s behind, splices = before ++ s :: behind ∧
        Splice.Applicable slice.length before ∧
        s.Offends slice.length (Splice.reached 0 before) error) ∧
    ∀ e, ofSplices slice splices = .ok e → CarriesOut slice splices e := by
  refine ⟨⟨?_, ?_⟩, ?_, ?_⟩
  · rintro ⟨e, he⟩
    obtain ⟨out, hout, -⟩ := ofSplices_ok he
    exact Splice.inOrder_zero_iff.1 (inOrder_of_splice hout)
  · intro h
    exact exists_ofSplices (Splice.inOrder_zero_iff.2 h)
  · intro error
    simp only [← Splice.inOrder_zero_iff]
    rw [← splice_error_iff 0]
    rw [ofSplices_eq]
    cases splice slice 0 0 splices <;> simp [Except.map]
  · intro e he
    obtain ⟨out, hout, rfl⟩ := ofSplices_ok he
    exact carriesOut_of_splice hout

end Edit

namespace Sample

/-- A deletion at the front, two insertions at one place, a void splice, and a replacement that
reaches the end. -/
def splices : List Splice :=
  [.delete ⟨0, 1⟩, .insert 2 (Bytes.ofString "X"), .insert 2 (Bytes.ofString "Y"), .insert 3 [],
    ⟨⟨5, 6⟩, Bytes.ofString "zz"⟩]

end Sample

/-- Six letters are spliced; of two splices that cannot be applied the one that lies outside is
reported as such, although it comes too early as well. -/
theorem Edit.carriesOut_letters :
    (∃ e, ofSplices (Bytes.ofString "abcdef") Sample.splices = .ok e ∧
      CarriesOut (Bytes.ofString "abcdef") Sample.splices e ∧
      e.bytes = Bytes.ofString "bXYcdezz") ∧
    ofSplices (Bytes.ofString "abcdef") [.delete ⟨3, 4⟩, .delete ⟨1, 9⟩] =
      .error (.outOfBounds ⟨1, 9⟩ 6) := by
  obtain ⟨happlicable, -, hcarries⟩ :=
    carriesOut_of_ofSplices (Bytes.ofString "abcdef") Sample.splices
  obtain ⟨-, herror, -⟩ :=
    carriesOut_of_ofSplices (Bytes.ofString "abcdef") [.delete ⟨3, 4⟩, .delete ⟨1, 9⟩]
  obtain ⟨e, he⟩ := happlicable.2 (by decide +kernel)
  refine ⟨⟨e, he, hcarries e he, ?_⟩, ?_⟩
  · rw [(hcarries e he).bytes]
    decide +kernel
  · apply (herror _).2
    exact ⟨[.delete ⟨3, 4⟩], .delete ⟨1, 9⟩, [], rfl, by decide +kernel, .outside (by decide +kernel)⟩

end Polyglot
