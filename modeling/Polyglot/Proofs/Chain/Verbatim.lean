import Mathlib.Algebra.GroupWithZero.Nat
import Polyglot.Proofs.Chain.Maps

/-!
# Trees without edits on their way

Where no chain on the path of a tree has an editor, the tree was parsed from the very bytes of the
buffer that the ranges on its path cut out, one out of the other, and the map of the tree shifts by
the sum of their starts. `Verbatim` is the invariant: the whole buffer has it, and a cut without
editor keeps it, because shifts compose to one shift.

Such a tree is flagged as edited only if its last range is empty: of no bytes a composition makes
a replacement of nothing.
-/

set_option autoImplicit false

namespace Polyglot

namespace Registered

/-- Where the last range on the path starts in the buffer, if no range on it was edited. -/
def base (e : Registered) : Nat :=
  (e.path.map (·.range.start)).sum

/-- The length of the last range on the path, or of the buffer if there is none. -/
def extent (buffer : Bytes) (e : Registered) : Nat :=
  (e.path.head?.map (·.range.length)).getD buffer.length

/-- The map from the last range on the path to the buffer. -/
def plainMap (buffer : Bytes) (e : Registered) : OffsetMap :=
  match e.path with
  | [] => OffsetMap.identity buffer.length
  | c :: _ => OffsetMap.cutOut c.range.length e.base

/-- No range on the path was edited. -/
def Plain (e : Registered) : Prop :=
  ∀ c ∈ e.path, c.chain.editor = none

variable {grammar : Grammar} {buffer : Bytes} {occurrence : Nat} {c : Cut} {e parent : Registered}
  {tree : SyntaxTree}

@[simp] theorem base_root (tree : SyntaxTree) : (⟨[], tree⟩ : Registered).base = 0 := rfl

theorem base_cut (c : Cut) (parent : Registered) (tree : SyntaxTree) :
    (⟨c :: parent.path, tree⟩ : Registered).base = parent.base + c.range.start := by
  unfold base
  rw [List.map_cons, List.sum_cons, Nat.add_comm]

@[simp] theorem extent_root (buffer : Bytes) (tree : SyntaxTree) :
    (⟨[], tree⟩ : Registered).extent buffer = buffer.length := rfl

@[simp] theorem extent_cut (buffer : Bytes) (c : Cut) (path : List Cut) (tree : SyntaxTree) :
    (⟨c :: path, tree⟩ : Registered).extent buffer = c.range.length := rfl

theorem plainMap_eq_shifted_or_cutOut (buffer : Bytes) (e : Registered) :
    e.plainMap buffer = OffsetMap.shifted (e.extent buffer) e.base ∨
      e.plainMap buffer = OffsetMap.cutOut (e.extent buffer) e.base := by
  obtain ⟨path, tree⟩ := e
  cases path with
  | nil => exact .inl rfl
  | cons c path => exact .inr rfl

theorem shifts_plainMap (buffer : Bytes) (e : Registered) :
    (e.plainMap buffer).Shifts e.base := by
  rcases e.plainMap_eq_shifted_or_cutOut buffer with h | h
  · rw [h]
    exact OffsetMap.shifts_shifted _ _
  · rw [h]
    exact OffsetMap.shifts_cutOut _ _

@[simp] theorem parsedLength_plainMap (buffer : Bytes) (e : Registered) :
    (e.plainMap buffer).parsedLength = e.extent buffer := by
  rcases e.plainMap_eq_shifted_or_cutOut buffer with h | h
  · rw [h, OffsetMap.parsedLength_shifted]
  · rw [h, OffsetMap.parsedLength_cutOut]

/-- The one map of a plain path that is not linear is that of an empty range. -/
theorem isLinear_plainMap (buffer : Bytes) (e : Registered) :
    (e.plainMap buffer).isLinear = false ↔
      ∃ c, e.path.head? = some c ∧ c.range.isEmpty = true := by
  obtain ⟨path, tree⟩ := e
  cases path with
  | nil =>
    show (OffsetMap.shifted buffer.length 0).isLinear = false ↔ _
    simp [OffsetMap.isLinear_shifted]
  | cons c path =>
    show (OffsetMap.cutOut c.range.length _).isLinear = false ↔ _
    rw [← Bool.not_eq_true, OffsetMap.isLinear_cutOut]
    simp only [Span.length, Span.isEmpty, List.head?_cons, Option.some.injEq, exists_eq_left',
      decide_eq_true_eq]
    omega

/-! ## The invariant -/

/-- The tree was parsed from the bytes of the buffer that the ranges on its path cut out. -/
structure Verbatim (grammar : Grammar) (buffer : Bytes) (e : Registered) : Prop where
  built : e.tree.Built
  source : e.tree.source = Source.ofBytes buffer
  parse : grammar e.tree.language e.tree.parsed = .ok e.tree.parse
  bounded : e.base + e.extent buffer ≤ buffer.length
  parsed : e.tree.parsed = buffer.slice e.base (e.base + e.extent buffer)
  map : e.tree.map = e.plainMap buffer

/-- The whole buffer is verbatim. -/
theorem verbatim_root {language : Language}
    (h : ChainSpec.parseRegion grammar language occurrence buffer
      (OffsetMap.identity buffer.length) (Source.ofBytes buffer) = .ok tree) :
    Verbatim grammar buffer ⟨[], tree⟩ := by
  obtain ⟨parse, hparse, rfl⟩ := ChainSpec.parseRegion_ok h
  constructor
  · exact SyntaxTree.built_build _ _ _ _ _ _
  · rfl
  · exact hparse
  · simp
  · simp [SyntaxTree.build, Bytes.slice]
  · rfl

theorem Verbatim.length_parsed (h : e.Verbatim grammar buffer) :
    e.tree.parsed.length = e.extent buffer := by
  have hbounded := h.bounded
  rw [h.parsed, Bytes.length_slice]
  omega

/-- What is cut out of a verbatim tree without editor is verbatim. -/
theorem Verbatim.cut (hp : parent.Verbatim grammar buffer)
    (hgives : c.Gives grammar occurrence parent.tree tree) (hplain : c.chain.editor = none) :
    Verbatim grammar buffer ⟨c :: parent.path, tree⟩ := by
  have hyields : ∀ w, c.chain.editor = some w →
      w.Yields fun slice edit => edit = Edit.unchanged slice := by
    intro w hw
    rw [hplain] at hw
    cases hw
  obtain ⟨edit, rfl, htree⟩ := hgives.edited
    (P := fun slice edit => edit = Edit.unchanged slice) (fun _ => rfl) hyields
  obtain ⟨parse, hparse, rfl⟩ := ChainSpec.parseRegion_ok htree
  obtain ⟨hup, hstop⟩ := Span.fits_iff.1 hgives.fits
  rw [hp.length_parsed] at hstop
  have hlength : (parent.tree.parsed.slice c.range.start c.range.stop).length =
      c.range.length := by
    rw [Bytes.length_slice, hp.length_parsed, Nat.min_eq_left hstop]
    rfl
  have hbounded := hp.bounded
  constructor
  · exact SyntaxTree.built_build _ _ _ _ _ _
  · exact hp.source
  · exact hparse
  · rw [base_cut, extent_cut]
    simp only [Span.length]
    omega
  · rw [base_cut, extent_cut]
    show parent.tree.parsed.slice c.range.start c.range.stop = _
    rw [hp.parsed, Bytes.slice_slice _ (by omega)]
    congr 1
    simp only [Span.length]
    omega
  · show ((OffsetMap.identity _).shiftTargets c.range.start).andThen parent.tree.map =
      OffsetMap.cutOut c.range.length _
    rw [base_cut, OffsetMap.shiftTargets_identity, hlength, hp.map]
    apply OffsetMap.shifted_andThen (parent.plainMap_eq_shifted_or_cutOut buffer)
    simp only [Span.length]
    omega

/-- Every tree with a plain path is verbatim. -/
theorem verbatim_of_plain {spec : ChainSpec} {entries : List Registered}
    (h : Grows grammar buffer spec entries) :
    ∀ e ∈ entries, e.Plain → e.Verbatim grammar buffer := by
  refine h.forall_entries ?_ ?_
  · intro tree hroot _
    exact verbatim_root hroot
  · intro c occurrence parent _ tree _ hgives ih hplain
    have hparent : parent.Plain := fun d hd => hplain d (List.mem_cons_of_mem c hd)
    exact (ih hparent).cut hgives (hplain c List.mem_cons_self)

namespace Verbatim

variable (h : e.Verbatim grammar buffer)
include h

theorem shifts : e.tree.map.Shifts e.base := by
  rw [h.map]
  exact e.shifts_plainMap buffer

theorem parsedLength : e.tree.map.parsedLength = e.extent buffer := by
  rw [h.map, parsedLength_plainMap]

theorem reach_le : e.base + e.tree.map.parsedLength ≤ e.tree.source.lines.length := by
  rw [h.parsedLength, h.source]
  exact h.bounded

theorem span_origin : e.tree.origin.span = ⟨e.base, e.base + e.extent buffer⟩ := by
  rw [h.built.span_origin_of_shifts h.shifts h.reach_le, h.parsedLength]

/-- Nodes stand where their spans are, moved by the base, and what is there was parsed for them. -/
theorem node (hr : e.tree.parse.root.Regular e.tree.parsed.length) {id : Nat}
    (hid : id < e.tree.nodes.size) :
    (e.tree.node id).location.span = (e.tree.node id).parsed.shift e.base ∧
      e.tree.source.slice (e.tree.node id).location.start (e.tree.node id).location.stop =
        e.tree.parsed.slice (e.tree.node id).parsed.start (e.tree.node id).parsed.stop := by
  rw [h.length_parsed, ← h.parsedLength] at hr
  have hspan := h.built.span_location_of_shifts h.shifts h.reach_le hr hid
  refine ⟨hspan, ?_⟩
  obtain ⟨hup, hstop⟩ := Span.fits_iff.1 (h.built.fits_parsed hr hid)
  rw [h.parsedLength] at hstop
  have hbounded := h.bounded
  have hstart : (e.tree.node id).location.start = e.base + (e.tree.node id).parsed.start := by
    rw [Nat.add_comm]
    exact congrArg Span.start hspan
  have hend : (e.tree.node id).location.stop = e.base + (e.tree.node id).parsed.stop := by
    rw [Nat.add_comm]
    exact congrArg Span.stop hspan
  rw [hstart, hend, h.source, Source.slice_of_le (by omega) (by rw [Source.bytes_ofBytes]; omega),
    h.parsed, Bytes.slice_slice _ (by omega)]
  rfl

end Verbatim

/-- On a plain path, just the trees of empty ranges are flagged. -/
theorem Verbatim.isEdited_iff (h : e.Verbatim grammar buffer) :
    e.tree.isEdited = true ↔ ∃ c, e.path.head? = some c ∧ c.range.isEmpty = true := by
  unfold SyntaxTree.isEdited
  rw [h.map, Bool.not_eq_true', e.isLinear_plainMap buffer]

end Registered

/-! ## A sample without editors -/

namespace Sample

/-- The back half of a section. -/
def half : ChainSpec :=
  .mk .json [] (some ⟨"back-half", fun _ bytes => [⟨bytes.length / 2, bytes.length⟩]⟩) none

/-- Sections of a page: an empty one, and two that overlap and are out of order. -/
def sections : ChainSpec :=
  .mk .css [half] (some ⟨"sections", fun _ _ => [⟨3, 3⟩, ⟨4, 11⟩, ⟨2, 7⟩]⟩) none

/-- A page with sections. -/
def plainSpec : ChainSpec :=
  .mk .html [sections] none none

/-- The contents of the page with sections. -/
def plainBuffer : Bytes :=
  Bytes.ofString "<p></p> abc"

/-- The trees of the page, and of each section before that of its half. -/
def plainForest : Forest :=
  resolved plainBuffer plainSpec

theorem result_resolve_plain :
    (ChainSpec.resolve grammar plainBuffer plainSpec).result = .ok plainForest := rfl

theorem editor_plainSpec : ∀ s ∈ plainSpec.nested, s.editor = none := by
  intro s hs
  have hs : s ∈ [sections, half] := hs
  simp only [List.mem_cons, List.not_mem_nil, or_false] at hs
  rcases hs with rfl | rfl
  · rfl
  · rfl

/-- The tree of the empty section. -/
def emptyTree : SyntaxTree :=
  plainForest.order.get ⟨1, by decide +kernel⟩

/-- The tree of the back half of the section behind it. -/
def halfTree : SyntaxTree :=
  plainForest.order.get ⟨4, by decide +kernel⟩

end Sample

/-- Chains without editors are exact: every tree of the forest, with the ranges that lead to it,
was parsed from the bytes of the buffer that they cut out one out of the other. Its origin is where
these bytes stand, and if the grammar returns spans in the parsed bytes that nest, every node stands
where its span is, moved by the sum of the starts, and its text is what was parsed for it. -/
theorem verbatim_of_resolve {grammar : Grammar} {buffer : Bytes} {spec : ChainSpec}
    {forest : Forest} (hplain : ∀ s ∈ spec.nested, s.editor = none)
    (h : (ChainSpec.resolve grammar buffer spec).result = .ok forest) :
    ∃ entries, Grows grammar buffer spec entries ∧ forest.order = entries.map (·.tree) ∧
      ∀ e ∈ entries,
        grammar e.tree.language e.tree.parsed = .ok e.tree.parse ∧
        (e.base + e.extent buffer ≤ buffer.length ∧
          e.tree.parsed = buffer.slice e.base (e.base + e.extent buffer) ∧
          e.tree.parsed.length = e.extent buffer) ∧
        e.tree.origin.span = ⟨e.base, e.base + e.extent buffer⟩ ∧
        (e.tree.parse.root.Regular e.tree.parsed.length →
          ∀ n : SyntaxNode, n.tree = e.tree → n.id < e.tree.nodes.size →
            n.location.span = n.data.parsed.shift e.base ∧
            e.tree.source.slice n.location.start n.location.stop =
              e.tree.parsed.slice n.data.parsed.start n.data.parsed.stop ∧
            n.text =
              Utf8.decodeLossy (e.tree.parsed.slice n.data.parsed.start n.data.parsed.stop)) := by
  obtain ⟨entries, hgrows, rfl⟩ := grows_of_resolve h
  refine ⟨entries, hgrows, order_forestOf buffer entries, fun e he => ?_⟩
  have hpath : e.Plain := fun c hc => hplain c.chain (hgrows.nested_of_mem e he c hc)
  have hverbatim := Registered.verbatim_of_plain hgrows e he hpath
  refine ⟨hverbatim.parse, ⟨hverbatim.bounded, hverbatim.parsed, hverbatim.length_parsed⟩,
    hverbatim.span_origin, ?_⟩
  rintro hr ⟨_, id⟩ rfl hid
  obtain ⟨hspan, hslice⟩ := hverbatim.node hr hid
  exact ⟨hspan, hslice, congrArg Utf8.decodeLossy hslice⟩

/-- The back half of a section: it starts three bytes into the section, which starts at byte 4. -/
theorem verbatim_sample :
    ((∀ s ∈ Sample.plainSpec.nested, s.editor = none) ∧
      (ChainSpec.resolve Sample.grammar Sample.plainBuffer Sample.plainSpec).result =
        .ok Sample.plainForest ∧
      Sample.halfTree ∈ Sample.plainForest.order ∧ 1 < Sample.halfTree.nodes.size) ∧
    ∃ e : Registered, e.tree = Sample.halfTree ∧ e.base = 7 ∧ e.extent Sample.plainBuffer = 4 ∧
      Sample.halfTree.parsed = Sample.plainBuffer.slice 7 11 ∧
      (Sample.halfTree.node 1).location.span = (Sample.halfTree.node 1).parsed.shift 7 ∧
      (⟨Sample.halfTree, 1⟩ : SyntaxNode).text = Utf8.decodeLossy (Bytes.ofString " abc") := by
  have hplain := Sample.editor_plainSpec
  have hrun := Sample.result_resolve_plain
  have ht : Sample.halfTree ∈ Sample.plainForest.order := List.get_mem _ _
  have hsize : 1 < Sample.halfTree.nodes.size := by decide +kernel
  refine ⟨⟨hplain, hrun, ht, hsize⟩, ?_⟩
  obtain ⟨entries, -, horder, hentries⟩ := verbatim_of_resolve hplain hrun
  rw [horder] at ht
  obtain ⟨e, he, htree⟩ := List.mem_map.1 ht
  obtain ⟨hparse, ⟨-, hparsed, -⟩, horigin, hnodes⟩ := hentries e he
  simp only [htree] at hparse hparsed horigin hnodes
  have hspan : Sample.halfTree.origin.span = ⟨7, 11⟩ := by decide +kernel
  rw [hspan, Span.mk.injEq] at horigin
  obtain ⟨hbase, hstop⟩ := horigin
  have hextent : e.extent Sample.plainBuffer = 4 := by omega
  rw [← hbase, hextent] at hparsed
  obtain ⟨hnode, -, htext⟩ :=
    hnodes (Sample.regular_of_grammar hparse) ⟨Sample.halfTree, 1⟩ rfl hsize
  refine ⟨e, htree, hbase.symm, hextent, hparsed, ?_, ?_⟩
  · rw [← hbase] at hnode
    exact hnode
  · rw [htext]
    exact congrArg Utf8.decodeLossy (by decide +kernel)

/-- A tree is flagged as edited only if its last range is empty or some chain on its path has an
editor. Without any editor on the path it is flagged just when its last range is empty. -/
theorem isEdited_of_resolve {grammar : Grammar} {buffer : Bytes} {spec : ChainSpec}
    {forest : Forest} (h : (ChainSpec.resolve grammar buffer spec).result = .ok forest) :
    ∃ entries, Grows grammar buffer spec entries ∧ forest.order = entries.map (·.tree) ∧
      ∀ e ∈ entries,
        (e.tree.isEdited = true →
          (∃ c, e.path.head? = some c ∧ c.range.isEmpty = true) ∨
            ∃ c ∈ e.path, c.chain.editor.isSome = true) ∧
        ((∀ c ∈ e.path, c.chain.editor = none) →
          (e.tree.isEdited = true ↔ ∃ c, e.path.head? = some c ∧ c.range.isEmpty = true)) := by
  obtain ⟨entries, hgrows, rfl⟩ := grows_of_resolve h
  refine ⟨entries, hgrows, order_forestOf buffer entries, fun e he => ?_⟩
  have hiff : e.Plain →
      (e.tree.isEdited = true ↔ ∃ c, e.path.head? = some c ∧ c.range.isEmpty = true) :=
    fun hplain => (Registered.verbatim_of_plain hgrows e he hplain).isEdited_iff
  refine ⟨fun hedited => ?_, hiff⟩
  by_cases hplain : e.Plain
  · exact .inl ((hiff hplain).1 hedited)
  · right
    by_contra hnone
    apply hplain
    intro c hc
    rw [← Option.not_isSome_iff_eq_none]
    exact fun hsome => hnone ⟨c, hc, hsome⟩

/-- Nothing was edited in the sample: the tree of the empty section is flagged, and that of the half
of the section behind it is not, for its range holds bytes. -/
theorem isEdited_sample :
    ((ChainSpec.resolve Sample.grammar Sample.plainBuffer Sample.plainSpec).result =
        .ok Sample.plainForest ∧
      Sample.emptyTree ∈ Sample.plainForest.order ∧ Sample.emptyTree.isEdited = true ∧
      Sample.halfTree ∈ Sample.plainForest.order ∧ Sample.halfTree.isEdited = false) ∧
    (∃ e : Registered, e.tree = Sample.emptyTree ∧ (∀ c ∈ e.path, c.chain.editor = none) ∧
      ∃ c, e.path.head? = some c ∧ c.range.isEmpty = true) ∧
    ∃ e : Registered, e.tree = Sample.halfTree ∧ (∀ c ∈ e.path, c.chain.editor = none) ∧
      ¬ ∃ c, e.path.head? = some c ∧ c.range.isEmpty = true := by
  have hrun := Sample.result_resolve_plain
  have hempty : Sample.emptyTree ∈ Sample.plainForest.order := List.get_mem _ _
  have hhalf : Sample.halfTree ∈ Sample.plainForest.order := List.get_mem _ _
  have hedited : Sample.emptyTree.isEdited = true := by decide +kernel
  have hkept : Sample.halfTree.isEdited = false := by decide +kernel
  refine ⟨⟨hrun, hempty, hedited, hhalf, hkept⟩, ?_⟩
  obtain ⟨entries, hgrows, horder, hentries⟩ := isEdited_of_resolve hrun
  have hplain : ∀ e ∈ entries, ∀ c ∈ e.path, c.chain.editor = none :=
    fun e he c hc => Sample.editor_plainSpec c.chain (hgrows.nested_of_mem e he c hc)
  rw [horder] at hempty hhalf
  constructor
  · obtain ⟨e, he, htree⟩ := List.mem_map.1 hempty
    rw [← htree] at hedited
    exact ⟨e, htree, hplain e he, ((hentries e he).2 (hplain e he)).1 hedited⟩
  · obtain ⟨e, he, htree⟩ := List.mem_map.1 hhalf
    rw [← htree, ← Bool.not_eq_true, (hentries e he).2 (hplain e he)] at hkept
    exact ⟨e, htree, hplain e he, hkept⟩

/-- No chain of the sample has an editor, and yet the tree of the empty section is flagged. -/
theorem isEdited_without_editor :
    (∀ s ∈ Sample.plainSpec.nested, s.editor = none) ∧
      (ChainSpec.resolve Sample.grammar Sample.plainBuffer Sample.plainSpec).result =
        .ok Sample.plainForest ∧
      Sample.emptyTree ∈ Sample.plainForest.order ∧ Sample.emptyTree.isEdited = true :=
  ⟨Sample.editor_plainSpec, Sample.result_resolve_plain, List.get_mem _ _, by decide +kernel⟩

end Polyglot
