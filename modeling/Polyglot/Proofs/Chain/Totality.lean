import Polyglot.Proofs.Chain.Extraction
import Polyglot.Proofs.Chain.Maps
import Polyglot.Proofs.Edit.Splices

/-!
# Chains that resolve every file

A chain can be relied on when it has the shape of a root chain, its extractors pick nodes, and its
editors have an edit for every slice. With a grammar that parses everything into nodes within the
bytes, such a chain resolves every file (`exists_resolve`), and every range that is sliced on the
way lies in what it is sliced out of (`Reliable.inRange`).

The editors at hand are total: what they splice is in order and within the slice, and the one that
blanks regions needs an opening marker to look for.
-/

set_option autoImplicit false

namespace Polyglot

/-! ## Editors -/

/-- The editor has an edit for every slice, made in one of the three ways there are. -/
structure Editor.Total (w : Editor) : Prop where
  edits : ∀ slice parent, ∃ edit, w.edit slice parent = .ok edit
  made : w.Yields Edit.Made

namespace Editor

theorem length_wrapperOpening : wrapperOpening.length = 4 := by decide

theorem leadingMarker?_fits {slice : Bytes} {span : Span} (h : leadingMarker? slice = some span) :
    span.fits slice.length = true := by
  simp only [leadingMarker?_eq, Option.ite_none_right_eq_some, Option.some.injEq] at h
  obtain ⟨hfront, rfl⟩ := h
  have hle := (List.isPrefixOf_iff_prefix.1 hfront).length_le
  rw [length_wrapperOpening, List.length_drop] at hle
  rw [Span.fits_iff]
  simp only
  omega

theorem trailingMarker?_fits {slice : Bytes} {free : Nat} {span : Span}
    (h : trailingMarker? slice free = some span) :
    span.fits slice.length = true ∧ free ≤ span.start := by
  simp only [trailingMarker?_eq, Option.ite_none_right_eq_some, Option.some.injEq] at h
  obtain ⟨⟨hfree, -⟩, rfl⟩ := h
  rw [Span.fits_iff]
  simp only
  omega

/-- The markers that are taken out lie in the slice, the closing one behind the opening one. -/
theorem inOrder_wrapperSplices (slice : Bytes) :
    Splice.InOrder slice.length 0 (wrapperSplices slice) := by
  rw [wrapperSplices_eq]
  cases hopening : leadingMarker? slice with
  | none =>
    cases hclosing : trailingMarker? slice 0 with
    | none => simp [hclosing, Splice.InOrder]
    | some closing =>
      have hfits := (trailingMarker?_fits hclosing).1
      simp [hclosing, Splice.InOrder, Splice.delete, hfits]
  | some opening =>
    have hfits := leadingMarker?_fits hopening
    cases hclosing : trailingMarker? slice opening.stop with
    | none => simp [hclosing, Splice.InOrder, Splice.delete, hfits]
    | some closing =>
      obtain ⟨hfits', hbehind⟩ := trailingMarker?_fits hclosing
      simp [hclosing, Splice.InOrder, Splice.delete, hfits, hfits', hbehind]

/-- An editor whose splices are in order is total. -/
theorem total_of_inOrder {name : String} {splices : Bytes → List Splice}
    (h : ∀ slice, Splice.InOrder slice.length 0 (splices slice)) :
    Total ⟨name, fun slice _ => (Edit.ofSplices slice (splices slice)).mapError .splice⟩ := by
  constructor
  · intro slice parent
    obtain ⟨edit, hedit⟩ := Edit.exists_ofSplices (h slice)
    exact ⟨edit, by simp only [hedit]; rfl⟩
  · intro slice parent edit hedit
    exact .spliced (yields_of_ofSplices slice parent edit hedit)

theorem total_stripCommentWrapper : stripCommentWrapper.Total :=
  total_of_inOrder inOrder_wrapperSplices

theorem total_wrap (before behind : Bytes) : (wrap before behind).Total := by
  apply total_of_inOrder
  intro slice
  simp [Splice.InOrder, Splice.insert, Span.fits]

theorem total_blankDelimited {opening : Bytes} (hopening : opening ≠ []) (closing : Bytes) :
    (blankDelimited opening closing).Total := by
  constructor
  · intro slice parent
    have hempty : ¬opening.isEmpty = true := by simpa using hopening
    exact ⟨_, if_neg hempty⟩
  · exact yields_blankDelimited opening closing

end Editor

/-! ## Grammars and trees -/

/-- The grammar parses all bytes, and the spans of the nodes lie in them. -/
def Grammar.Total (grammar : Grammar) : Prop :=
  ∀ language bytes, ∃ parse, grammar language bytes = .ok parse ∧
    ∀ n ∈ parse.root.preorder, n.span.fits bytes.length = true

/-- The spans of all nodes lie in the parsed bytes. -/
def SyntaxTree.Spanned (t : SyntaxTree) : Prop :=
  ∀ id, (t.node id).parsed.fits t.parsed.length = true

theorem SyntaxTree.Built.spanned {t : SyntaxTree} (h : t.Built)
    (hfits : ∀ n ∈ t.parse.root.preorder, n.span.fits t.parsed.length = true) : t.Spanned := by
  intro id
  by_cases hid : id < t.nodes.size
  · exact h.fits_of_preorder hfits hid
  · have hdefault : t.node id = default := by
      unfold SyntaxTree.node
      rw [Array.getD_eq_getD_getElem?, Array.getElem?_eq_none (Nat.le_of_not_lt hid)]
      rfl
    rw [hdefault, Span.fits_iff]
    exact ⟨Nat.le_refl _, Nat.zero_le _⟩

/-- What an extractor picks out of a tree can be sliced. -/
theorem Extractor.PicksNodes.fits {x : Extractor} (hx : x.PicksNodes) {t : SyntaxTree}
    (ht : t.Spanned) {range : Span} (hrange : range ∈ x.ranges t t.parsed) :
    range.fits t.parsed.length = true := by
  obtain ⟨id, rfl⟩ := hx t t.parsed range hrange
  exact ht id

/-! ## Chains -/

/-- A nested chain has an extractor, which picks nodes, and if it has an editor that is total. -/
structure ChainSpec.Sure (s : ChainSpec) : Prop where
  picks : ∃ x, s.extractor = some x ∧ x.PicksNodes
  edits : ∀ w, s.editor = some w → w.Total

/-- A chain that can be relied on: it has the shape of a root chain, and all nested chains are
sure. -/
structure ChainSpec.Reliable (s : ChainSpec) : Prop where
  shape : s.validate = .ok ()
  nested : ∀ t ∈ s.nested, t.Sure

namespace ChainSpec

/-! ## Resolutions -/

section Resolutions

variable {grammar : Grammar} {editor : Option Editor}

theorem exists_parseRegion (hgrammar : grammar.Total) (language : Language) (occurrence : Nat)
    (bytes : Bytes) (map : OffsetMap) (source : Source) :
    ∃ tree, parseRegion grammar language occurrence bytes map source = .ok tree ∧
      tree.Spanned := by
  obtain ⟨parse, hparse, hfits⟩ := hgrammar language bytes
  refine ⟨SyntaxTree.build language occurrence bytes parse map source, ?_, ?_⟩
  · simp [parseRegion, hparse]
  · exact (SyntaxTree.built_build _ _ _ _ _ _).spanned hfits

theorem exists_prepare (hedits : ∀ w, editor = some w → w.Total) (language : Language)
    (occurrence : Nat) (slice : Bytes) (parent : SyntaxTree) :
    ∃ edit, prepare language occurrence editor slice parent = .ok edit := by
  cases editor with
  | none => exact ⟨_, rfl⟩
  | some w =>
    obtain ⟨edit, hedit⟩ := (hedits w rfl).edits slice parent
    exact ⟨edit, by simp only [prepare, hedit]; rfl⟩

theorem exists_resolveRange (hgrammar : grammar.Total)
    (hedits : ∀ w, editor = some w → w.Total) (parent : SyntaxTree) (language : Language)
    (occurrence : Nat) (range : Span) :
    ∃ tree, (resolveRange grammar parent language editor occurrence range).result = .ok tree ∧
      tree.Spanned := by
  obtain ⟨edit, hedit⟩ := exists_prepare hedits language occurrence
    (parent.parsed.slice range.start range.stop) parent
  obtain ⟨tree, htree, hspanned⟩ := exists_parseRegion hgrammar language occurrence edit.bytes
    ((edit.map.shiftTargets range.start).andThen parent.map) parent.source
  exact ⟨tree, resolveRange_of_ok hedit htree, hspanned⟩

mutual

/-- Sure chains find their trees in every parent. -/
theorem exists_resolveNested (hgrammar : grammar.Total) :
    ∀ (children : List ChainSpec), (∀ s ∈ nestedAmong children, s.Sure) →
      ∀ (parent : SyntaxTree), parent.Spanned → ∀ forest,
        ∃ forest', (resolveNested grammar parent children forest).result = .ok forest'
  | [], _, _, _, forest => ⟨forest, rfl⟩
  | s :: rest, hchildren, parent, hparent, forest => by
    obtain ⟨hs, hmore⟩ := List.forall_mem_cons.1 hchildren
    obtain ⟨hnested, hrest⟩ := List.forall_mem_append.1 hmore
    obtain ⟨middle, hmiddle⟩ := exists_resolveChild hgrammar s hs hnested parent hparent forest
    obtain ⟨forest', hforest⟩ := exists_resolveNested hgrammar rest hrest parent hparent middle
    refine ⟨forest', ?_⟩
    rw [resolveNested_cons, Logged.result_bind_of_ok hmiddle]
    exact hforest

theorem exists_resolveChild (hgrammar : grammar.Total) :
    ∀ (s : ChainSpec), s.Sure → (∀ t ∈ s.nested, t.Sure) →
      ∀ (parent : SyntaxTree), parent.Spanned → ∀ forest,
        ∃ forest', (resolveChild grammar parent s forest).result = .ok forest'
  | .mk entry children none editor, hs, _, _, _, _ => by
    obtain ⟨x, hx, -⟩ := hs.picks
    cases hx
  | .mk entry children (some x) editor, hs, hnested, parent, hparent, forest => by
    obtain ⟨y, hy, hx⟩ := hs.picks
    obtain rfl := Option.some.inj hy
    have hedits : ∀ w, editor = some w → w.Total := hs.edits
    have hfits : ∀ range ∈ x.ranges parent parent.parsed,
        range.fits parent.parsed.length = true := fun range hrange => hx.fits hparent hrange
    rw [resolveChild_some, Logged.result_bind_of_ok (result_checkRanges_eq_ok_iff.2 hfits)]
    apply Logged.exists_foldlM
    intro range _ forest
    obtain ⟨tree, htree, hspanned⟩ := exists_resolveRange hgrammar hedits parent entry
      (forest.occurrences entry) range
    obtain ⟨forest', hforest⟩ := exists_resolveNested hgrammar children hnested tree hspanned
      (forest.insert tree)
    refine ⟨forest', ?_⟩
    rw [Logged.result_bind_of_ok htree]
    exact hforest

end

/-- A chain that can be relied on resolves every file. -/
theorem exists_resolve (hgrammar : grammar.Total) {spec : ChainSpec} (hspec : spec.Reliable)
    (buffer : Bytes) : ∃ forest, (resolve grammar buffer spec).result = .ok forest := by
  obtain ⟨root, hroot, hspanned⟩ := exists_parseRegion hgrammar spec.entry 0 buffer
    (OffsetMap.identity buffer.length) (Source.ofBytes buffer)
  obtain ⟨forest, hforest⟩ := exists_resolveNested hgrammar spec.children
    (fun t ht => hspec.nested t (by rwa [nested_eq])) root hspanned
    ((Forest.empty (Source.ofBytes buffer)).insert root)
  refine ⟨forest, ?_⟩
  rw [resolve_eq, Logged.result_bind_of_ok hspec.shape, Logged.result_bind_of_ok hroot,
    Logged.result_bind_of_ok hforest]
  rfl

end Resolutions

end ChainSpec

/-- What is read of a tree lies in range: the map leads the parsed bytes into the buffer, the spans
of the nodes lie in the parsed bytes, their locations in the buffer, and what the extractors of the
chain pick can be sliced. -/
structure SyntaxTree.InRange (grammar : Grammar) (buffer : Bytes) (spec : ChainSpec)
    (t : SyntaxTree) : Prop where
  founded : t.Founded grammar buffer
  spanned : t.Spanned
  located : ∀ id < t.nodes.size, t.source.Locates (t.node id).location
  sliced : ∀ s ∈ spec.nested, ∀ x, s.extractor = some x → ∀ range ∈ x.ranges t t.parsed,
    range.fits t.parsed.length = true

theorem ChainSpec.Reliable.inRange {grammar : Grammar} (hgrammar : grammar.Total)
    {spec : ChainSpec} (hspec : spec.Reliable) {buffer : Bytes} {forest : Forest}
    (h : (ChainSpec.resolve grammar buffer spec).result = .ok forest) :
    ∀ t ∈ forest.order, t.InRange grammar buffer spec := by
  intro t ht
  have hmade : ∀ s ∈ spec.nested, ∀ w, s.editor = some w → w.Yields Edit.Made :=
    fun s hs w hw => ((hspec.nested s hs).edits w hw).made
  have hfounded := founded_of_resolve hmade h t ht
  have hspanned : t.Spanned := by
    obtain ⟨parse, hparse, hfits⟩ := hgrammar t.language t.parsed
    rw [hfounded.parse] at hparse
    obtain rfl := Except.ok.inj hparse
    exact hfounded.built.spanned hfits
  constructor
  · exact hfounded
  · exact hspanned
  · intro id hid
    exact hfounded.built.locates hid
  · intro s hs x hx range hrange
    obtain ⟨y, hy, hpicks⟩ := (hspec.nested s hs).picks
    obtain rfl : x = y := Option.some.inj (hx.symm.trans hy)
    exact hpicks.fits hspanned hrange

theorem Sample.total_grammar : grammar.Total := by
  intro language bytes
  refine ⟨_, rfl, ?_⟩
  exact (regular_of_grammar (show grammar language bytes = .ok _ from rfl)).fits

end Polyglot
