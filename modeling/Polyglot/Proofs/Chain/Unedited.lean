import Polyglot.Proofs.Chain.Maps
import Polyglot.Proofs.Edit.Seams

/-!
# Trees that are not flagged as edited

A tree that is not flagged has the layout of the buffer: its map is one shift, and its nodes stand
where their spans are, moved by one distance. The flag only says whether all segments are linear,
so this needs a replacement wherever the targets have a gap; `Intact` is the invariant. It holds as
long as no edit on the path makes two copies that meet. A void splice makes them meet: what an edit
further out deletes at that place is forgotten, and a tree with a gap is not flagged.
-/

set_option autoImplicit false

namespace Polyglot

theorem Editor.yields_whole_of_ofSplices {name : String} {splices : Bytes → List Splice}
    (hvoid : ∀ slice, ∀ s ∈ splices slice, s.isVoid = false) :
    Yields ⟨name, fun slice _ => (Edit.ofSplices slice (splices slice)).mapError .splice⟩
      Edit.Whole := by
  intro slice parent edit h
  exact Edit.whole_ofSplices (hvoid slice) (ok_of_mapError_ok h)

theorem Editor.yields_whole_stripCommentWrapper : stripCommentWrapper.Yields Edit.Whole :=
  yields_whole_of_ofSplices fun _ _ => isVoid_of_mem_wrapperSplices

/-! ## Samples -/

namespace Sample

/-- Letters of the script. -/
def letters : ChainSpec :=
  .mk .css [] (some ⟨"letters", fun _ _ => [⟨1, 4⟩]⟩) none

/-- The script without its markers, with letters of it. -/
def letteredScript : ChainSpec :=
  .mk .javaScript [letters] (some ⟨"script", fun _ bytes => [⟨1, bytes.length⟩]⟩)
    (some Editor.stripCommentWrapper)

/-- The page with letters of its script. -/
def letteredSpec : ChainSpec :=
  .mk .html [letteredScript] none none

/-- The trees of the page, of its script, and of the letters. -/
def letteredForest : Forest :=
  resolved buffer letteredSpec

theorem result_resolve_lettered :
    (ChainSpec.resolve grammar buffer letteredSpec).result = .ok letteredForest := rfl

/-- The tree of the letters. -/
def lettersTree : SyntaxTree :=
  letteredForest.order.get ⟨2, by decide +kernel⟩

theorem editorsYield_whole : letteredSpec.EditorsYield Edit.Whole := by
  intro s hs w hw
  have hs : s ∈ [letteredScript, letters] := hs
  simp only [List.mem_cons, List.not_mem_nil, or_false] at hs
  rcases hs with rfl | rfl
  · obtain rfl := Option.some.inj hw
    exact Editor.yields_whole_stripCommentWrapper
  · cases hw

/-- The second of three letters cut out. -/
def deletion : Edit :=
  ⟨Bytes.ofString "ac", OffsetMap.ofSegments
    [Segment.copied ⟨0, 1⟩ 0, Segment.replaced ⟨1, 1⟩ ⟨1, 2⟩, Segment.copied ⟨1, 2⟩ 2]⟩

/-- Cuts a fixed span out. -/
def cutting (span : Span) : Editor :=
  ⟨"cutting", fun slice _ => (Edit.ofSplices slice [Splice.delete span]).mapError .splice⟩

/-- Cuts nothing out of the middle of what is left. -/
def voidCut : ChainSpec :=
  .mk .html [] (some ⟨"rest", fun _ bytes => [⟨0, bytes.length⟩]⟩) (some (cutting ⟨3, 3⟩))

/-- Cuts two bytes out of the middle. -/
def middleCut : ChainSpec :=
  .mk .html [voidCut] (some ⟨"whole", fun _ bytes => [⟨0, bytes.length⟩]⟩)
    (some (cutting ⟨3, 5⟩))

/-- Two cuts at one place, the second of which is void. -/
def voidSpec : ChainSpec :=
  .mk .html [middleCut] none none

/-- A text of seven bytes. -/
def voidBuffer : Bytes :=
  Bytes.ofString "plaXXin"

/-- The trees of the text, of the five bytes that are left, and of these once more. -/
def voidForest : Forest :=
  resolved voidBuffer voidSpec

theorem result_resolve_void :
    (ChainSpec.resolve grammar voidBuffer voidSpec).result = .ok voidForest := rfl

/-- The tree behind the void splice. -/
def voidTree : SyntaxTree :=
  voidForest.order.get ⟨2, by decide +kernel⟩

theorem editorsYield_void : voidSpec.EditorsYield Edit.Made := by
  apply ChainSpec.EditorsYield.made
  intro s hs w hw
  have hs : s ∈ [middleCut, voidCut] := hs
  simp only [List.mem_cons, List.not_mem_nil, or_false] at hs
  rcases hs with rfl | rfl
  · obtain rfl := Option.some.inj hw
    exact Editor.yields_of_ofSplices
  · obtain rfl := Option.some.inj hw
    exact Editor.yields_of_ofSplices

end Sample

/-! ## The invariant -/

section Invariant

variable {grammar : Grammar} {buffer : Bytes} {occurrence : Nat} {c : Cut}
  {parent tree t : SyntaxTree}

/-- The tree is founded, and wherever its targets have a gap its map has a replacement. -/
structure SyntaxTree.Intact (grammar : Grammar) (buffer : Bytes) (t : SyntaxTree) : Prop where
  founded : t.Founded grammar buffer
  seamless : t.map.Seamless

/-- The tree of the whole buffer is intact. -/
theorem intact_root {language : Language}
    (h : ChainSpec.parseRegion grammar language occurrence buffer
      (OffsetMap.identity buffer.length) (Source.ofBytes buffer) = .ok tree) :
    tree.Intact grammar buffer := by
  have hfounded := founded_root h
  obtain ⟨parse, hparse, rfl⟩ := ChainSpec.parseRegion_ok h
  exact ⟨hfounded, OffsetMap.seamless_shifted buffer.length 0⟩

/-- What is cut out of an intact tree with whole edits is intact. -/
theorem SyntaxTree.Intact.cut (hp : parent.Intact grammar buffer)
    (hgives : c.Gives grammar occurrence parent tree)
    (hyields : ∀ w, c.chain.editor = some w → w.Yields Edit.Whole) :
    tree.Intact grammar buffer := by
  have hfounded : tree.Founded grammar buffer := by
    apply hp.founded.cut hgives
    intro w hw slice parent edit hedit
    exact (hyields w hw slice parent edit hedit).made
  obtain ⟨edit, parse, hwhole, hinner, -, rfl⟩ := hp.founded.exists_edit hgives
    (fun _ _ h => h.made.fits) Edit.whole_unchanged hyields
  refine ⟨hfounded, ?_⟩
  apply hp.seamless.andThen hinner.wellFormed hp.founded.wellFormed hinner.targetsIn
    hinner.nonempty
  exact hwhole.unsplit.shiftTargets c.range.start

/-- Every editor on the path yields edits of a kind. -/
def Registered.EditorsYield (e : Registered) (P : Bytes → Edit → Prop) : Prop :=
  ∀ c ∈ e.path, ∀ w, c.chain.editor = some w → w.Yields P

/-- A tree with whole edits on its path is intact, whatever other chains do. -/
theorem intact_of_grows {spec : ChainSpec} {entries : List Registered}
    (h : Grows grammar buffer spec entries) :
    ∀ e ∈ entries, e.EditorsYield Edit.Whole → e.tree.Intact grammar buffer := by
  refine h.forall_entries ?_ ?_
  · intro tree hroot _
    exact intact_root hroot
  · intro c occurrence parent _ tree _ hgives ih hyields
    have hparent : parent.EditorsYield Edit.Whole :=
      fun d hd => hyields d (List.mem_cons_of_mem c hd)
    exact (ih hparent).cut hgives (hyields c List.mem_cons_self)

namespace SyntaxTree.Intact

variable (h : t.Intact grammar buffer) (hflag : t.isEdited = false)
include h hflag

/-- The map of a tree that is not flagged shifts, and does not lead out of the buffer. -/
theorem shifts : t.map.Shifts t.map.targetSpan.start ∧
    t.map.targetSpan.start + t.map.parsedLength ≤ t.source.lines.length := by
  have hlin : t.map.isLinear = true := by
    unfold isEdited at hflag
    simpa using hflag
  have hshifts := h.seamless.shifts h.founded.wellFormed hlin
  refine ⟨hshifts, ?_⟩
  have hstop := h.founded.wellFormed.stop_targetSpan_le h.founded.targetsIn
  rw [congrArg Span.stop hshifts.targetSpan] at hstop
  rw [h.founded.source]
  exact hstop

theorem start_origin : t.origin.start = t.map.targetSpan.start := by
  obtain ⟨hshifts, hbound⟩ := h.shifts hflag
  have hspan := h.founded.built.span_origin_of_shifts hshifts hbound
  have hstart := congrArg Span.start hspan
  exact hstart

end SyntaxTree.Intact

end Invariant

/-- Kept slices, place-for-place bytes and edits without void splices make no two copies that meet.
Where the editors on the path of a tree make such edits and the tree is not flagged, it keeps its
layout: its map leads every range over by the start of the origin, and if the spans of the parse are
regular, every node stands where its span is, moved by that start. -/
theorem layout_of_resolve {grammar : Grammar} {buffer : Bytes} {spec : ChainSpec} {forest : Forest}
    (h : (ChainSpec.resolve grammar buffer spec).result = .ok forest) :
    ((∀ slice, Edit.Whole slice (Edit.unchanged slice)) ∧
      (∀ slice bytes : Bytes, Edit.Whole slice (Edit.positional bytes slice.length)) ∧
      ∀ (slice : Bytes) (splices : List Splice) (edit : Edit),
        Edit.ofSplices slice splices = .ok edit → (∀ s ∈ splices, s.isVoid = false) →
        Edit.Whole slice edit) ∧
    ∃ entries, Grows grammar buffer spec entries ∧ forest.order = entries.map (·.tree) ∧
      ∀ e ∈ entries, e.EditorsYield Edit.Whole → e.tree.isEdited = false →
        (∀ a b, a ≤ b → b ≤ e.tree.parsed.length →
          e.tree.map.mapRange a b = ⟨e.tree.origin.start + a, e.tree.origin.start + b⟩) ∧
        (e.tree.parse.root.Regular e.tree.parsed.length → ∀ id < e.tree.nodes.size,
          (e.tree.node id).location.span =
            (e.tree.node id).parsed.shift e.tree.origin.start) := by
  refine ⟨⟨Edit.whole_unchanged, Edit.whole_positional, ?_⟩, ?_⟩
  · intro slice splices edit hedit hvoid
    exact Edit.whole_ofSplices hvoid hedit
  · obtain ⟨entries, hgrows, rfl⟩ := grows_of_resolve h
    refine ⟨entries, hgrows, order_forestOf buffer entries, fun e he hyields hflag => ?_⟩
    have hintact := intact_of_grows hgrows e he hyields
    obtain ⟨hshifts, hbound⟩ := hintact.shifts hflag
    rw [hintact.start_origin hflag, ← hintact.founded.parsedLength]
    constructor
    · intro a b hab hb
      exact hshifts.mapRange hab hb
    · intro hr id hid
      exact hintact.founded.built.span_location_of_shifts hshifts hbound hr hid

/-- The letters of the sample: markers were taken out around the script, but not in the letters. -/
theorem layout_sample :
    ((ChainSpec.resolve Sample.grammar Sample.buffer Sample.letteredSpec).result =
        .ok Sample.letteredForest ∧
      Sample.lettersTree ∈ Sample.letteredForest.order ∧
      Sample.lettersTree.isEdited = false ∧
      Sample.lettersTree.parse.root.Regular Sample.lettersTree.parsed.length ∧
      1 < Sample.lettersTree.nodes.size) ∧
    (∃ e : Registered, e.tree = Sample.lettersTree ∧ e.EditorsYield Edit.Whole ∧
      e.tree.map.mapRange 1 3 = ⟨7, 9⟩ ∧
      (e.tree.node 1).location.span = (e.tree.node 1).parsed.shift 6) ∧
    Edit.Whole (Bytes.ofString "abc") Sample.deletion := by
  have hrun := Sample.result_resolve_lettered
  have ht : Sample.lettersTree ∈ Sample.letteredForest.order := List.get_mem _ _
  have hflag : Sample.lettersTree.isEdited = false := by decide +kernel
  have hsize : 1 < Sample.lettersTree.nodes.size := by decide +kernel
  have hstart : Sample.lettersTree.origin.start = 6 := by decide +kernel
  have hlength : Sample.lettersTree.parsed.length = 3 := by decide +kernel
  have hparse : Sample.grammar Sample.lettersTree.language Sample.lettersTree.parsed =
      .ok Sample.lettersTree.parse := rfl
  have hregular := Sample.regular_of_grammar hparse
  obtain ⟨hwhole, entries, hgrows, horder, hentries⟩ := layout_of_resolve hrun
  refine ⟨⟨hrun, ht, hflag, hregular, hsize⟩, ?_, ?_⟩
  · rw [horder] at ht
    obtain ⟨e, he, htree⟩ := List.mem_map.1 ht
    have hyields : e.EditorsYield Edit.Whole := fun c hc =>
      Sample.editorsYield_whole c.chain (hgrows.nested_of_mem e he c hc)
    rw [← htree] at hflag hstart hlength hregular hsize
    obtain ⟨hranges, hnodes⟩ := hentries e he hyields hflag
    rw [hstart] at hranges hnodes
    refine ⟨e, htree, hyields, ?_, hnodes hregular 1 hsize⟩
    exact hranges 1 3 (by decide) (by rw [hlength])
  · exact hwhole.2.2 _ [Splice.delete ⟨1, 2⟩] _ (by decide +kernel) (by decide)

/-- Behind a void splice the two bytes that were cut out further out are forgotten: the tree is not
flagged, and its map is no shift. -/
theorem layout_lost_at_void_splice :
    (Sample.voidSpec.EditorsYield Edit.Made ∧
      (ChainSpec.resolve Sample.grammar Sample.voidBuffer Sample.voidSpec).result =
        .ok Sample.voidForest ∧
      Sample.voidTree ∈ Sample.voidForest.order) ∧
    Sample.voidTree.isEdited = false ∧
    ¬ ∃ base, ∀ a b, a ≤ b → b ≤ Sample.voidTree.parsed.length →
      Sample.voidTree.map.mapRange a b = ⟨base + a, base + b⟩ := by
  refine ⟨⟨Sample.editorsYield_void, Sample.result_resolve_void, List.get_mem _ _⟩,
    by decide +kernel, ?_⟩
  rintro ⟨base, hbase⟩
  have hlength : Sample.voidTree.parsed.length = 5 := by decide +kernel
  have hwhole := hbase 0 5 (by decide) (by rw [hlength])
  have himage : Sample.voidTree.map.mapRange 0 5 = ⟨0, 7⟩ := by decide +kernel
  rw [himage, Span.mk.injEq] at hwhole
  omega

end Polyglot
