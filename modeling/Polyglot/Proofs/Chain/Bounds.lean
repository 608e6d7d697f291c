import Polyglot.Config.Definition

/-!
# Editors stay in bounds

The editors at hand take parts out of the slice that they are given, and of the buffer that they
blank. With a check before each of these accesses they do what they do without one
(`EditorDef.editBy_eq`): the copies between splices reach from one span that fits to the next, the
blanks at the ends of a slice are a part of it, and the loop that blanks regions searches on from an
offset of the buffer.
-/

set_option autoImplicit false

namespace Polyglot

variable {m : Type → Type} [Monad m] [LawfulMonad m] {bounds : Bounds m} {slice : Bytes}

/-! ## Splices -/

namespace Edit

theorem copyBy_eq (h : bounds.Admits) {cursor stop : Nat} (hstop : stop ≤ slice.length)
    (written : Nat) :
    copyBy bounds slice cursor stop written = pure (copy slice cursor stop written) := by
  rw [copyBy, copy_eq]
  split
  · next hlt => rw [Bytes.sliceBy_of_le h (Nat.le_of_lt hlt) hstop, pure_bind]
  · rfl

theorem spliceBy_eq (h : bounds.Admits) {cursor : Nat} (hcursor : cursor ≤ slice.length)
    (written : Nat) (splices : List Splice) :
    spliceBy bounds slice cursor written splices = pure (splice slice cursor written splices) := by
  induction splices generalizing cursor written with
  | nil =>
    rw [spliceBy, h.of_le hcursor (Nat.le_refl _), pure_bind, copyBy_eq h (Nat.le_refl _),
      pure_bind, splice_nil]
  | cons s rest ih =>
    rw [spliceBy, splice_cons_eq]
    split
    · rfl
    · next hfits =>
      rw [Bool.not_eq_true, Bool.not_eq_false', Span.fits_iff] at hfits
      split
      · rfl
      · rw [copyBy_eq h (Nat.le_trans hfits.1 hfits.2), pure_bind]
        simp only [ih hfits.2, pure_bind]

/-- Splicing takes nothing out of a slice that is not there, be the splices in order or not. -/
theorem ofSplicesBy_eq (h : bounds.Admits) (slice : Bytes) (splices : List Splice) :
    ofSplicesBy bounds slice splices = pure (ofSplices slice splices) := by
  rw [ofSplicesBy, spliceBy_eq h (Nat.zero_le _), pure_bind, ofSplices_eq]

end Edit

/-! ## Regions -/

namespace Blanking

variable {opening closing : Bytes} {c : Blanking}

theorem stopOf_bounds {buffer : Array UInt8} {body : Nat} (hbody : body ≤ buffer.size)
    (closing : Bytes) :
    body ≤ stopOf buffer closing body ∧ stopOf buffer closing body ≤ buffer.size := by
  unfold stopOf
  split
  · next offset hfound =>
    obtain ⟨hle, hstop, -⟩ := of_find? hfound
    omega
  · exact ⟨hbody, Nat.le_refl _⟩

/-- A turn that starts in the buffer takes nothing out of it that is not there. -/
theorem turnBy_eq (h : bounds.Admits) (hc : c.next ≤ c.buffer.size) :
    turnBy bounds opening closing c = pure (Id.run (turnBy .trusting opening closing c)) := by
  unfold turnBy
  rw [h.of_le hc (Nat.le_refl _), pure_bind]
  simp only [Bounds.trusting]
  split
  · rfl
  · next start hfound =>
    obtain ⟨hle, hbody, hpos⟩ := of_find? hfound
    obtain ⟨hbehind, hstop⟩ := stopOf_bounds hbody closing
    rw [h.of_le hbody (Nat.le_refl _), pure_bind, h.of_le (by omega) hstop, pure_bind]
    rfl

/-- A turn leaves the search in the buffer. -/
theorem next_le_of_step {next : Blanking} (h : c.step opening closing = some next) :
    next.next ≤ next.buffer.size := by
  rw [step_eq] at h
  obtain ⟨start, hfound, rfl⟩ := Option.map_eq_some_iff.1 h
  obtain ⟨hle, hbody, hpos⟩ := of_find? hfound
  obtain ⟨hbehind, hstop⟩ := stopOf_bounds hbody closing
  simp only [size_blankFrom]
  omega

/-- A loop that starts in the buffer takes nothing out of it that is not there. -/
theorem runBy_eq (h : bounds.Admits) (c : Blanking) (hc : c.next ≤ c.buffer.size) :
    runBy bounds opening closing c = pure (c.run opening closing) := by
  unfold run
  rw [runBy, runBy, turnBy_eq h hc, pure_bind, Id.run_bind]
  cases hturn : (turnBy .trusting opening closing c).run with
  | none => rfl
  | some next =>
    have hstep : c.step opening closing = some next.val := by rw [step, hturn]; rfl
    exact runBy_eq h next.val (next_le_of_step hstep)
termination_by c.remaining
decreasing_by exact next.property

end Blanking

/-! ## The editors -/

namespace Editor

theorem leadingMarkerBy_eq (h : bounds.Admits) (slice : Bytes) :
    leadingMarkerBy bounds slice = pure (leadingMarker? slice) := by
  have hle : slice.leadingBlanks ≤ slice.length :=
    (List.takeWhile_prefix Bytes.isBlank).length_le
  rw [leadingMarkerBy, Bytes.sliceBy_of_le h hle (Nat.le_refl _), pure_bind]
  rfl

theorem trailingMarkerBy_eq (h : bounds.Admits) (slice : Bytes) (free : Nat) :
    trailingMarkerBy bounds slice free = pure (trailingMarker? slice free) := by
  unfold trailingMarker? trailingMarkerBy
  simp only
  split
  · rw [Bytes.sliceBy_of_le h (Nat.zero_le _) (Nat.sub_le _ _), pure_bind]
    rfl
  · rfl

theorem stripBy_eq (h : bounds.Admits) (slice : Bytes) :
    stripBy bounds slice = pure (Id.run (stripBy .trusting slice)) := by
  rw [stripBy, wrapperSplicesBy, leadingMarkerBy_eq h, pure_bind, trailingMarkerBy_eq h, pure_bind,
    pure_bind, Edit.ofSplicesBy_eq h, pure_bind]
  rfl

theorem wrapBy_eq (h : bounds.Admits) (before behind slice : Bytes) :
    wrapBy bounds before behind slice = pure (Id.run (wrapBy .trusting before behind slice)) := by
  rw [wrapBy, Edit.ofSplicesBy_eq h, pure_bind]
  rfl

theorem blankBy_eq (h : bounds.Admits) (opening closing slice : Bytes) :
    blankBy bounds opening closing slice =
      pure (Id.run (blankBy .trusting opening closing slice)) := by
  unfold blankBy
  split
  · rfl
  · rw [Blanking.runBy_eq h _ (Nat.zero_le _), pure_bind]
    rfl

end Editor

/-- An editor at hand takes nothing out of a slice that is not there, whatever is checked of what it
takes. -/
theorem EditorDef.editBy_eq (h : bounds.Admits) (d : EditorDef) (slice : Bytes)
    (parent : SyntaxTree) : d.editBy bounds slice = pure (d.build.edit slice parent) := by
  cases d with
  | stripCommentWrapper => exact Editor.stripBy_eq h slice
  | wrap before behind => exact Editor.wrapBy_eq h _ _ slice
  | blankDelimited opening closing => exact Editor.blankBy_eq h _ _ slice

end Polyglot
