import Polyglot.Chain.Editors
import Polyglot.Proofs.Chain.Growth
import Polyglot.Proofs.Edit.Maps
import Polyglot.Proofs.Syntax.Shifted

/-!
# The maps of a forest

Every tree that a resolution registers has a well-formed map of exactly its parsed bytes into
the buffer, whatever the extractors pick, as long as the editors make their edits in one of the
three ways there are. `Founded` is the invariant; the whole buffer has it, and a cut keeps it
(`Founded.cut`), because composition keeps maps well-formed.
-/

set_option autoImplicit false

namespace Polyglot

/-! ## The editors at hand -/

namespace Editor

theorem yields_of_ofSplices {name : String} {splices : Bytes → List Splice} :
    Yields ⟨name, fun slice _ => (Edit.ofSplices slice (splices slice)).mapError .splice⟩
      Edit.Spliced := by
  intro slice parent edit h
  exact .ofSplices (ok_of_mapError_ok h)

theorem yields_wrap (before behind : Bytes) : (wrap before behind).Yields Edit.Spliced :=
  yields_of_ofSplices

theorem yields_stripCommentWrapper : stripCommentWrapper.Yields Edit.Spliced :=
  yields_of_ofSplices

theorem yields_blankDelimited (opening closing : Bytes) :
    (blankDelimited opening closing).Yields Edit.Made := by
  intro slice parent edit h
  rw [edit_blankDelimited] at h
  split at h
  · cases h
  · obtain rfl := Except.ok.inj h
    exact .positional _

end Editor

theorem ChainSpec.EditorsYield.made {spec : ChainSpec} (h : spec.EditorsYield Edit.Spliced) :
    spec.EditorsYield Edit.Made := by
  intro s hs w hw slice parent edit hedit
  exact .spliced (h s hs w hw slice parent edit hedit)

/-! ## A sample

A page whose one script is wrapped in a legacy comment; of what is left of it three regions, an
empty one and two that overlap, are put in parentheses. -/

namespace Sample

/-- Takes all bytes for a document with one item. -/
def grammar : Grammar := fun _ bytes =>
  let label (id : Nat) (kind : String) : ParseNode :=
    ⟨id, kind, ⟨true, false, false, false, false⟩, none, ⟨0, bytes.length⟩⟩
  .ok ⟨.node (label 0 "document") [.node (label 1 "item") []], "(document (item))"⟩

/-- Regions of the script. -/
def regions : ChainSpec :=
  .mk .css [] (some ⟨"regions", fun _ _ => [⟨1, 4⟩, ⟨4, 4⟩, ⟨2, 5⟩]⟩)
    (some (Editor.wrap (Bytes.ofString "(") (Bytes.ofString ")")))

/-- The script without its markers. -/
def script : ChainSpec :=
  .mk .javaScript [regions] (some ⟨"script", fun _ bytes => [⟨1, bytes.length⟩]⟩)
    (some Editor.stripCommentWrapper)

/-- The page. -/
def spec : ChainSpec :=
  .mk .html [script] none none

/-- The contents of the page. -/
def buffer : Bytes :=
  Bytes.ofString "><!--abcdef-->"

/-- The trees of the page: its own, that of the script, and those of the three regions. -/
def forest : Forest :=
  match (ChainSpec.resolve grammar buffer spec).result with
  | .ok forest => forest
  | .error _ => Forest.empty (Source.ofBytes buffer)

theorem result_resolve : (ChainSpec.resolve grammar buffer spec).result = .ok forest := rfl

/-- The forest of another sample; it has no trees where the sample cannot be resolved. -/
def resolved (buffer : Bytes) (spec : ChainSpec) : Forest :=
  match (ChainSpec.resolve grammar buffer spec).result with
  | .ok forest => forest
  | .error _ => Forest.empty (Source.ofBytes buffer)

/-- The tree of the page. -/
def pageTree : SyntaxTree :=
  forest.order.get ⟨0, by decide +kernel⟩

/-- The tree of the script. -/
def scriptTree : SyntaxTree :=
  forest.order.get ⟨1, by decide +kernel⟩

theorem nested_of_grammar {language : Language} {bytes : Bytes} {parse : Parse}
    (h : grammar language bytes = .ok parse) : parse.root.Nested := by
  obtain rfl := Except.ok.inj h
  simp [ParseTree.Nested, ParseTree.NestedIn, ParseTree.label, Span.Inside]

theorem regular_of_grammar {language : Language} {bytes : Bytes} {parse : Parse}
    (h : grammar language bytes = .ok parse) : parse.root.Regular bytes.length := by
  refine ⟨nested_of_grammar h, ?_⟩
  obtain rfl := Except.ok.inj h
  simp [ParseTree.preorder, ParseTree.preorderAll, Span.fits]

theorem editorsYield : spec.EditorsYield Edit.Spliced := by
  intro s hs w hw
  have hs : s ∈ [script, regions] := hs
  simp only [List.mem_cons, List.not_mem_nil, or_false] at hs
  rcases hs with rfl | rfl
  · obtain rfl := Option.some.inj hw
    exact Editor.yields_stripCommentWrapper
  · obtain rfl := Option.some.inj hw
    exact Editor.yields_wrap _ _

end Sample

/-! ## The invariant -/

section Invariant

variable {grammar : Grammar} {buffer : Bytes} {occurrence : Nat} {c : Cut}
  {parent tree : SyntaxTree}

/-- The tree is one of the buffer: built from what the grammar gives for its bytes, with a
well-formed map of these bytes into the buffer. -/
structure SyntaxTree.Founded (grammar : Grammar) (buffer : Bytes) (t : SyntaxTree) : Prop where
  built : t.Built
  source : t.source = Source.ofBytes buffer
  parse : grammar t.language t.parsed = .ok t.parse
  wellFormed : t.map.WellFormed
  parsedLength : t.map.parsedLength = t.parsed.length
  targetsIn : t.map.TargetsIn ⟨0, buffer.length⟩

/-- The tree of the whole buffer is founded. -/
theorem founded_root {language : Language}
    (h : ChainSpec.parseRegion grammar language occurrence buffer
      (OffsetMap.identity buffer.length) (Source.ofBytes buffer) = .ok tree) :
    tree.Founded grammar buffer := by
  obtain ⟨parse, hparse, rfl⟩ := ChainSpec.parseRegion_ok h
  have hfits : Edit.Fits buffer (Edit.unchanged buffer) := Edit.Spliced.unchanged.fits
  exact ⟨rfl, rfl, hparse, hfits.wellFormed, hfits.parsedLength, hfits.targetsIn⟩

/-- The inner map of a cut: well-formed, into the parsed bytes of the parent, and not empty. -/
structure OffsetMap.LeadsInto (inner outer : OffsetMap) : Prop where
  wellFormed : inner.WellFormed
  targetsIn : inner.TargetsIn ⟨0, outer.parsedLength⟩
  nonempty : inner.segments ≠ []

/-- The map of an edit, moved to where its slice stands, leads into the parsed bytes of the
parent. -/
theorem SyntaxTree.Founded.leadsInto (hp : parent.Founded grammar buffer) {range : Span}
    (hrange : range.fits parent.parsed.length = true) {edit : Edit}
    (hedit : edit.Fits (parent.parsed.slice range.start range.stop)) :
    (edit.map.shiftTargets range.start).LeadsInto parent.map := by
  rw [Span.fits_iff] at hrange
  have hlen : (parent.parsed.slice range.start range.stop).length = range.stop - range.start := by
    rw [Bytes.length_slice]
    omega
  constructor
  · exact hedit.wellFormed.shiftTargets range.start
  · rw [hp.parsedLength]
    intro s hs
    obtain ⟨-, hstop⟩ := hedit.targetsIn.shiftTargets range.start s hs
    refine ⟨Nat.zero_le _, ?_⟩
    simp only [hlen] at hstop ⊢
    omega
  · exact OffsetMap.shiftTargets_ne_nil hedit.nonempty range.start

/-- How a cut of a founded tree comes about, with editors whose edits are of a kind that fits. -/
theorem SyntaxTree.Founded.exists_edit (hp : parent.Founded grammar buffer)
    (hgives : c.Gives grammar occurrence parent tree) {P : Bytes → Edit → Prop}
    (hfits : ∀ slice edit, P slice edit → edit.Fits slice)
    (hkept : ∀ slice, P slice (Edit.unchanged slice))
    (hyields : ∀ w, c.chain.editor = some w → w.Yields P) :
    ∃ edit parse, P (parent.parsed.slice c.range.start c.range.stop) edit ∧
      (edit.map.shiftTargets c.range.start).LeadsInto parent.map ∧
      grammar c.chain.entry edit.bytes = .ok parse ∧
      tree = SyntaxTree.build c.chain.entry occurrence edit.bytes parse
        ((edit.map.shiftTargets c.range.start).andThen parent.map) parent.source := by
  obtain ⟨edit, hedit, htree⟩ := hgives.edited hkept hyields
  obtain ⟨parse, hparse, rfl⟩ := ChainSpec.parseRegion_ok htree
  exact ⟨edit, parse, hedit, hp.leadsInto hgives.fits (hfits _ _ hedit), hparse, rfl⟩

/-- What is cut out of a founded tree is founded. -/
theorem SyntaxTree.Founded.cut (hp : parent.Founded grammar buffer)
    (hgives : c.Gives grammar occurrence parent tree)
    (hyields : ∀ w, c.chain.editor = some w → w.Yields Edit.Made) :
    tree.Founded grammar buffer := by
  obtain ⟨edit, parse, hmade, hinner, hparse, rfl⟩ := hp.exists_edit hgives
    (fun _ _ => Edit.Made.fits) (fun _ => .spliced .unchanged) hyields
  constructor
  · exact SyntaxTree.built_build _ _ _ _ _ _
  · exact hp.source
  · exact hparse
  · exact hinner.wellFormed.andThen hp.wellFormed hinner.targetsIn
  · show ((edit.map.shiftTargets c.range.start).andThen parent.map).parsedLength = _
    rw [OffsetMap.parsedLength_andThen hinner.wellFormed hp.wellFormed hinner.targetsIn,
      OffsetMap.parsedLength_shiftTargets]
    exact hmade.fits.parsedLength
  · exact OffsetMap.targetsIn_andThen hp.wellFormed hp.targetsIn

/-- All trees of a forest are founded. -/
theorem founded_of_resolve {spec : ChainSpec} {forest : Forest}
    (hyields : spec.EditorsYield Edit.Made)
    (h : (ChainSpec.resolve grammar buffer spec).result = .ok forest) :
    ∀ t ∈ forest.order, t.Founded grammar buffer := by
  refine forall_order_of_resolve h ?_ ?_
  · intro tree
    exact founded_root
  · intro c occurrence parent _ tree hnested hgives hparent
    exact hparent.cut hgives (hyields c.chain hnested)

end Invariant

/-- Composition keeps maps well-formed, as long as the inner map leads into the bytes of the outer
one; so every tree that a resolution registers has a well-formed map of exactly the bytes that were
parsed for it into the buffer. -/
theorem wellFormed_of_resolve :
    (∀ inner outer : OffsetMap, inner.WellFormed → outer.WellFormed →
      inner.TargetsIn ⟨0, outer.parsedLength⟩ →
      (inner.andThen outer).WellFormed ∧
        (inner.andThen outer).parsedLength = inner.parsedLength ∧
        ∀ n, outer.TargetsIn ⟨0, n⟩ → (inner.andThen outer).TargetsIn ⟨0, n⟩) ∧
      ∀ (grammar : Grammar) (buffer : Bytes) (spec : ChainSpec) (forest : Forest),
        spec.EditorsYield Edit.Made →
        (ChainSpec.resolve grammar buffer spec).result = .ok forest →
        ∀ t ∈ forest.order,
          grammar t.language t.parsed = .ok t.parse ∧ t.map.WellFormed ∧
            t.map.parsedLength = t.parsed.length ∧ t.map.TargetsIn ⟨0, buffer.length⟩ := by
  constructor
  · intro inner outer hi ho hin
    refine ⟨hi.andThen ho hin, OffsetMap.parsedLength_andThen hi ho hin, ?_⟩
    intro n hn
    exact OffsetMap.targetsIn_andThen ho hn
  · intro grammar buffer spec forest hyields h t ht
    have hfounded := founded_of_resolve hyields h t ht
    exact ⟨hfounded.parse, hfounded.wellFormed, hfounded.parsedLength, hfounded.targetsIn⟩

/-- The maps of the sample, and one composition. -/
theorem wellFormed_sample :
    ((OffsetMap.insertion.WellFormed ∧ OffsetMap.deletion.WellFormed ∧
        OffsetMap.insertion.TargetsIn ⟨0, OffsetMap.deletion.parsedLength⟩) ∧
      (OffsetMap.insertion.andThen OffsetMap.deletion).WellFormed) ∧
    (Sample.spec.EditorsYield Edit.Made ∧
      (ChainSpec.resolve Sample.grammar Sample.buffer Sample.spec).result = .ok Sample.forest ∧
      Sample.forest.order.length = 5) ∧
    ∀ t ∈ Sample.forest.order, t.map.WellFormed ∧ t.map.parsedLength = t.parsed.length ∧
      t.map.TargetsIn ⟨0, Sample.buffer.length⟩ := by
  have hi : OffsetMap.insertion.WellFormed := by decide
  have ho : OffsetMap.deletion.WellFormed := by decide
  have hin : OffsetMap.insertion.TargetsIn ⟨0, OffsetMap.deletion.parsedLength⟩ := by decide
  have hyields := Sample.editorsYield.made
  have hrun := Sample.result_resolve
  refine ⟨⟨⟨hi, ho, hin⟩, (wellFormed_of_resolve.1 _ _ hi ho hin).1⟩, ⟨hyields, hrun, rfl⟩, ?_⟩
  intro t ht
  exact (wellFormed_of_resolve.2 _ _ _ _ hyields hrun t ht).2

end Polyglot
