import Polyglot.Proofs.Chain.Blanking
import Polyglot.Proofs.Chain.Totality
import Polyglot.Proofs.Edit.Cuts

/-!
# What is left without a comment wrapper

The blanks at either end of a slice are counted by scans that may meet, and so may the markers that
the scans lead to. `Marker` says where a marker is, without the scans: an opening one directly behind
the blanks at the front, a closing one directly before the blanks at the back, unless it shares a byte
with the opening one. What is spliced are just these spans (`exists_wrapperSplices`). They can always be
cut out, so there is an edit for every slice, and it keeps every byte outside of them.
-/

set_option autoImplicit false

namespace Polyglot

namespace Bytes

variable {bs text : Bytes} {i n m stop : Nat}

/-- Just so many bytes at the front are blank: the one behind them is not, if there is one. -/
structure BlankFront (bs : Bytes) (n : Nat) : Prop where
  blank : ∀ i : Nat, i < n → ∃ b, bs[i]? = some b ∧ isBlank b = true
  maximal : ∀ b, bs[n]? = some b → isBlank b = false

theorem BlankFront.unique (hn : bs.BlankFront n) (hm : bs.BlankFront m) : n = m := by
  have hle : ∀ {n m : Nat}, bs.BlankFront n → bs.BlankFront m → n ≤ m := by
    intro n m hn hm
    by_contra hlt
    obtain ⟨b, hb, hblank⟩ := hn.blank m (Nat.lt_of_not_le hlt)
    rw [hm.maximal b hb] at hblank
    cases hblank
  exact Nat.le_antisymm (hle hn hm) (hle hm hn)

/-- Blanks in front of a byte that is not blank. -/
theorem blankFront_append {blanks rest : Bytes} (hblanks : ∀ b ∈ blanks, isBlank b = true)
    (hrest : ∀ b, rest[0]? = some b → isBlank b = false) :
    BlankFront (blanks ++ rest) blanks.length := by
  constructor
  · intro i hi
    refine ⟨blanks[i], ?_, hblanks _ (List.getElem_mem hi)⟩
    rw [List.getElem?_append_left hi, List.getElem?_eq_getElem hi]
  · intro b hb
    rw [List.getElem?_append_right (Nat.le_refl _), Nat.sub_self] at hb
    exact hrest b hb

theorem blankFront_leadingBlanks (bs : Bytes) : bs.BlankFront bs.leadingBlanks := by
  have happend : BlankFront (bs.takeWhile isBlank ++ bs.dropWhile isBlank) bs.leadingBlanks := by
    apply blankFront_append
    · intro b hb
      exact List.mem_takeWhile_imp hb
    · intro b hb
      rw [← List.head?_eq_getElem?] at hb
      have hnot := List.head?_dropWhile_not isBlank bs
      rw [hb] at hnot
      exact hnot
  rwa [List.takeWhile_append_dropWhile] at happend

theorem blankFront_iff : bs.BlankFront n ↔ n = bs.leadingBlanks :=
  ⟨fun h => h.unique (blankFront_leadingBlanks bs), fun h => h ▸ blankFront_leadingBlanks bs⟩

theorem trailingBlanks_le (bs : Bytes) : bs.trailingBlanks ≤ bs.length := by
  have hle := (List.takeWhile_prefix isBlank (l := bs.reverse)).length_le
  rwa [List.length_reverse] at hle

theorem occursAt_append (before text behind : Bytes) :
    OccursAt (before ++ (text ++ behind)) text before.length := by
  unfold OccursAt
  rw [List.drop_left]
  exact List.prefix_append _ _

/-- A text ends where a part of the bytes does just when it occurs that far in front. -/
theorem suffix_take_iff (hstop : stop ≤ bs.length) :
    text <:+ bs.take stop ↔ ∃ i, bs.OccursAt text i ∧ i + text.length = stop := by
  constructor
  · rintro ⟨before, hbefore⟩
    refine ⟨before.length, ?_, ?_⟩
    · refine ⟨bs.drop stop, ?_⟩
      conv_rhs => rw [← List.take_append_drop stop bs, ← hbefore, List.append_assoc]
      exact (List.drop_left).symm
    · have hlength := congrArg List.length hbefore
      rwa [List.length_append, List.length_take, Nat.min_eq_left hstop] at hlength
  · rintro ⟨i, ⟨behind, hbehind⟩, rfl⟩
    refine ⟨bs.take i, ?_⟩
    rw [List.take_add, ← hbehind, List.take_left]

end Bytes

/-- Without what stands between, the ends are left. -/
theorem Splice.delete_applyTo (before middle behind : Bytes) :
    (delete ⟨before.length, before.length + middle.length⟩).applyTo (before ++ middle ++ behind) =
      before ++ behind := by
  rw [← List.length_append]
  unfold applyTo delete
  rw [List.append_assoc before middle behind, List.take_left, ← List.append_assoc, List.drop_left,
    List.append_nil]

namespace Editor

open Bytes (BlankFront)

variable {slice : Bytes} {span : Span} {free : Nat}

theorem length_wrapperClosing : wrapperClosing.length = 3 := by decide

/-- Where a marker stands that wraps what is in the slice: an opening one directly behind the blanks at
the front, and a closing one directly before the blanks at the back, clear of the opening one. -/
inductive Marker (slice : Bytes) : Span → Prop
  | opening {lead : Nat} (blanks : slice.BlankFront lead)
      (here : slice.OccursAt wrapperOpening lead) : Marker slice ⟨lead, lead + 4⟩
  | closing {start trail : Nat} (here : slice.OccursAt wrapperClosing start)
      (behind : start + 3 + trail = slice.length) (blanks : BlankFront slice.reverse trail)
      (clear : ∀ lead, slice.BlankFront lead → slice.OccursAt wrapperOpening lead →
        lead + 4 ≤ start) : Marker slice ⟨start, start + 3⟩

/-! ## The scans -/

theorem leadingMarker?_eq_some_iff : leadingMarker? slice = some span ↔
    ∃ lead, slice.BlankFront lead ∧ slice.OccursAt wrapperOpening lead ∧
      span = ⟨lead, lead + 4⟩ := by
  simp only [leadingMarker?_eq, Option.ite_none_right_eq_some, Option.some.injEq,
    List.isPrefixOf_iff_prefix, Bytes.blankFront_iff, exists_eq_left, eq_comm (b := span)]
  rfl

theorem trailingMarker?_eq_some_iff : trailingMarker? slice free = some span ↔
    ∃ start trail, slice.OccursAt wrapperClosing start ∧ start + 3 + trail = slice.length ∧
      BlankFront slice.reverse trail ∧ free ≤ start ∧ span = ⟨start, start + 3⟩ := by
  have hle := Bytes.trailingBlanks_le slice
  simp only [trailingMarker?_eq, Option.ite_none_right_eq_some, Option.some.injEq,
    List.isSuffixOf_iff_suffix, Bytes.suffix_take_iff (Nat.sub_le slice.length _),
    length_wrapperClosing, Bytes.blankFront_iff]
  constructor
  · rintro ⟨⟨hfree, start, hoccurs, hstop⟩, rfl⟩
    refine ⟨start, slice.trailingBlanks, hoccurs, by omega, rfl, by omega, ?_⟩
    rw [Span.mk.injEq]
    omega
  · rintro ⟨start, trail, hoccurs, hlength, htrail, hfree, rfl⟩
    have htrail : trail = slice.trailingBlanks := htrail
    refine ⟨⟨by omega, start, hoccurs, by omega⟩, ?_⟩
    rw [Span.mk.injEq]
    omega

/-- What is spliced are the markers. -/
theorem exists_wrapperSplices (slice : Bytes) :
    ∃ spans : List Span, wrapperSplices slice = spans.map Splice.delete ∧
      ∀ span, span ∈ spans ↔ Marker slice span := by
  refine ⟨_, wrapperSplices_eq slice, fun span => ?_⟩
  rw [List.mem_append, Option.mem_toList, Option.mem_toList, leadingMarker?_eq_some_iff,
    trailingMarker?_eq_some_iff]
  -- Clear of the opening marker is what starts no earlier than the scan for the closing one may.
  have hclear : ∀ start, ((leadingMarker? slice).map (·.stop)).getD 0 ≤ start ↔
      ∀ lead, slice.BlankFront lead → slice.OccursAt wrapperOpening lead → lead + 4 ≤ start := by
    intro start
    cases hopening : leadingMarker? slice with
    | none =>
      refine ⟨fun _ lead hblanks hoccurs => ?_, fun _ => Nat.zero_le start⟩
      rw [leadingMarker?_eq_some_iff.2 ⟨lead, hblanks, hoccurs, rfl⟩] at hopening
      cases hopening
    | some opening =>
      obtain ⟨lead, hblanks, hoccurs, rfl⟩ := leadingMarker?_eq_some_iff.1 hopening
      refine ⟨fun hle other hother _ => ?_, fun hall => hall lead hblanks hoccurs⟩
      rwa [hother.unique hblanks]
  constructor
  · rintro (⟨lead, hblanks, hoccurs, rfl⟩ | ⟨start, trail, hoccurs, hlength, hblanks, hfree, rfl⟩)
    · exact .opening hblanks hoccurs
    · exact .closing hoccurs hlength hblanks ((hclear start).1 hfree)
  · rintro (⟨hblanks, hoccurs⟩ | ⟨hoccurs, hlength, hblanks, hfree⟩)
    · exact .inl ⟨_, hblanks, hoccurs, rfl⟩
    · exact .inr ⟨_, _, hoccurs, hlength, hblanks, (hclear _).2 hfree, rfl⟩

/-! ## The edit -/

/-- The markers around a body are spliced, whatever the body is. -/
theorem wrapperSplices_wrapped {lead trail : Bytes} (hlead : ∀ b ∈ lead, Bytes.isBlank b = true)
    (htrail : ∀ b ∈ trail, Bytes.isBlank b = true) (body : Bytes) :
    wrapperSplices (lead ++ wrapperOpening ++ body ++ wrapperClosing ++ trail) =
      [.delete ⟨lead.length, lead.length + wrapperOpening.length⟩,
        .delete ⟨(lead ++ wrapperOpening ++ body).length,
          (lead ++ wrapperOpening ++ body).length + wrapperClosing.length⟩] := by
  generalize hslice : lead ++ wrapperOpening ++ body ++ wrapperClosing ++ trail = slice
  have hfront : slice.BlankFront lead.length := by
    rw [← hslice]
    simp only [List.append_assoc]
    apply Bytes.blankFront_append hlead
    intro b hb
    obtain rfl := Option.some.inj (show some 60 = some b from hb)
    decide
  have hback : BlankFront slice.reverse trail.length := by
    rw [← hslice, List.reverse_append, List.reverse_append, ← @List.length_reverse _ trail]
    apply Bytes.blankFront_append
    · intro b hb
      exact htrail b (List.mem_reverse.1 hb)
    · intro b hb
      obtain rfl := Option.some.inj (show some 62 = some b from hb)
      decide
  have hopening : leadingMarker? slice = some ⟨lead.length, lead.length + 4⟩ := by
    refine leadingMarker?_eq_some_iff.2 ⟨_, hfront, ?_, rfl⟩
    rw [← hslice]
    simp only [List.append_assoc]
    exact Bytes.occursAt_append _ _ _
  have hclosing : trailingMarker? slice (lead.length + 4) =
      some ⟨(lead ++ wrapperOpening ++ body).length,
        (lead ++ wrapperOpening ++ body).length + 3⟩ := by
    refine trailingMarker?_eq_some_iff.2 ⟨_, trail.length, ?_, ?_, hback, ?_, rfl⟩
    · rw [← hslice, List.append_assoc _ wrapperClosing]
      exact Bytes.occursAt_append _ _ _
    · simp only [← hslice, List.length_append, length_wrapperClosing]
    · simp only [List.length_append, length_wrapperOpening]
      omega
  rw [wrapperSplices_eq]
  simp only [hopening, Option.map_some, Option.getD_some, hclosing]
  rfl

theorem spliced_wrapped {lead trail : Bytes} (hlead : ∀ b ∈ lead, Bytes.isBlank b = true)
    (htrail : ∀ b ∈ trail, Bytes.isBlank b = true) (body : Bytes) :
    Splice.spliced (lead ++ wrapperOpening ++ body ++ wrapperClosing ++ trail)
      (wrapperSplices (lead ++ wrapperOpening ++ body ++ wrapperClosing ++ trail)) =
        lead ++ body ++ trail := by
  rw [wrapperSplices_wrapped hlead htrail]
  unfold Splice.spliced
  rw [List.foldr_cons, List.foldr_cons, List.foldr_nil, Splice.delete_applyTo,
    List.append_assoc (lead ++ wrapperOpening), Splice.delete_applyTo, List.append_assoc]

/-- There is an edit for every slice, and it takes out the markers and nothing else: it keeps the bytes
outside of them, in order, and maps each one to the offset of the slice that it was kept from. Of a
body between two markers, with blanks around them, the body is left and the blanks. -/
theorem stripCommentWrapper_keeps (slice : Bytes) (parent : SyntaxTree) :
    ∃ (edit : Edit) (offsets : List Nat),
      stripCommentWrapper.edit slice parent = .ok edit ∧
      offsets.Pairwise (· < ·) ∧
      (∀ k, k ∈ offsets ↔ k < slice.length ∧ ∀ span, Marker slice span → ¬ k ∈ span) ∧
      edit.Keeps slice offsets ∧
      ∀ lead body trail : Bytes, (∀ b ∈ lead, Bytes.isBlank b = true) →
        (∀ b ∈ trail, Bytes.isBlank b = true) →
        slice = lead ++ wrapperOpening ++ body ++ wrapperClosing ++ trail →
        edit.bytes = lead ++ body ++ trail := by
  obtain ⟨spans, hspans, hmarkers⟩ := exists_wrapperSplices slice
  obtain ⟨edit, hedit⟩ := Edit.exists_ofSplices (inOrder_wrapperSplices slice)
  have hkeeps := Edit.keeps_of_delete (hspans ▸ hedit)
  refine ⟨edit, Edit.uncut slice.length spans, ?_, Edit.pairwise_uncut _ _, fun k => ?_, hkeeps, ?_⟩
  · rw [edit_stripCommentWrapper, hedit]
    rfl
  · simp only [Edit.mem_uncut, hmarkers]
  · rintro lead body trail hlead htrail rfl
    have hcarries := (Edit.carriesOut_of_ofSplices _ _).2.2 edit hedit
    rw [hcarries.bytes, spliced_wrapped hlead htrail]

-- The dashes of the opening marker cannot close it.
example : (stripCommentWrapper.edit (Bytes.ofString " <!--> ") Sample.pageTree).toOption.map
    (·.bytes) = some (Bytes.ofString " > ") := by
  decide +kernel

end Editor

end Polyglot
