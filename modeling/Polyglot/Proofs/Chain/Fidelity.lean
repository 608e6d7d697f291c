import Polyglot.Proofs.Chain.Maps
import Polyglot.Syntax.Navigation

/-!
# Byte fidelity

Where editors only keep or splice what they are given, every byte in a linear segment of any
tree's map is the byte of the buffer it is led to, however deep the tree is nested. `Faithful` is
the invariant. So a node whose span lies in one linear segment has as its source text the bytes
that were parsed for it.
-/

set_option autoImplicit false

namespace Polyglot

section Invariant

variable {grammar : Grammar} {buffer : Bytes} {occurrence : Nat} {c : Cut}
  {parent tree t : SyntaxTree} {s : Segment} {span : Span}

/-- The tree is founded and its map copies faithfully. A linear segment without bytes is only in
the map of an empty buffer. -/
structure SyntaxTree.Faithful (grammar : Grammar) (buffer : Bytes) (t : SyntaxTree) : Prop where
  founded : t.Founded grammar buffer
  copies : t.map.Copies t.parsed buffer
  solid : ∀ s ∈ t.map.segments, s.linear = true → s.parsed.start < s.parsed.stop ∨ buffer = []

/-- The tree of the whole buffer is faithful. -/
theorem faithful_root {language : Language}
    (h : ChainSpec.parseRegion grammar language occurrence buffer
      (OffsetMap.identity buffer.length) (Source.ofBytes buffer) = .ok tree) :
    tree.Faithful grammar buffer := by
  have hfounded := founded_root h
  obtain ⟨parse, hparse, rfl⟩ := ChainSpec.parseRegion_ok h
  have hcopies : (Edit.unchanged buffer).map.Copies buffer buffer := Edit.Spliced.unchanged.copies
  refine ⟨hfounded, hcopies, ?_⟩
  intro s hs _
  obtain rfl := List.mem_singleton.1 hs
  cases buffer with
  | nil => exact .inr rfl
  | cons b rest => exact .inl (Nat.succ_pos _)

/-- What is cut out of a faithful tree is faithful. -/
theorem SyntaxTree.Faithful.cut (hp : parent.Faithful grammar buffer)
    (hgives : c.Gives grammar occurrence parent tree)
    (hyields : ∀ w, c.chain.editor = some w → w.Yields Edit.Spliced) :
    tree.Faithful grammar buffer := by
  have hfounded : tree.Founded grammar buffer := by
    apply hp.founded.cut hgives
    intro w hw slice parent edit hedit
    exact .spliced (hyields w hw slice parent edit hedit)
  obtain ⟨edit, parse, hspliced, hinner, -, rfl⟩ := hp.founded.exists_edit hgives
    (fun _ _ => Edit.Spliced.fits) (fun _ => .unchanged) hyields
  have hedit := hspliced.fits
  refine ⟨hfounded, ?_, ?_⟩
  · apply OffsetMap.Copies.andThen hinner.wellFormed hp.founded.wellFormed hinner.targetsIn
    · exact hspliced.copies.shiftTargets hedit.wellFormed hedit.targetsIn
    · exact hp.copies
  · intro s hs hlin
    left
    exact OffsetMap.parsed_lt_of_mem_andThen hinner.wellFormed hp.founded.wellFormed
      hinner.targetsIn hinner.nonempty hs hlin

/-- All trees of a forest are faithful. -/
theorem faithful_of_resolve {spec : ChainSpec} {forest : Forest}
    (hyields : spec.EditorsYield Edit.Spliced)
    (h : (ChainSpec.resolve grammar buffer spec).result = .ok forest) :
    ∀ t ∈ forest.order, t.Faithful grammar buffer := by
  refine forall_order_of_resolve h ?_ ?_
  · intro tree
    exact faithful_root
  · intro c occurrence parent _ tree hnested hgives hparent
    exact hparent.cut hgives (hyields c.chain hnested)

namespace SyntaxTree.Faithful

variable (h : t.Faithful grammar buffer)
include h

/-- A byte of a linear segment is one of the parsed bytes and the byte it is led to. -/
theorem byte (hs : s ∈ t.map.segments) (hlin : s.linear = true) {i : Nat} (hi : i ∈ s.parsed) :
    i < t.parsed.length ∧ t.parsed[i]? = buffer[t.map.mapStart i]? := by
  have hlen := (h.founded.wellFormed.parsed_of_mem hs).2
  rw [h.founded.parsedLength] at hlen
  refine ⟨Nat.lt_of_lt_of_le hi.2 hlen, ?_⟩
  rw [h.founded.wellFormed.mapStart_of_mem hs hi]
  exact h.copies s hs hlin i hi

/-- A range in a linear segment that holds a byte goes over to the same bytes of the buffer. -/
theorem slice_image (hs : s ∈ t.map.segments) (hlin : s.linear = true)
    (hin : span.Inside s.parsed) (hlt : span.start < span.stop) :
    (t.map.mapRange span.start span.stop).stop ≤ buffer.length ∧
      buffer.slice (t.map.mapRange span.start span.stop).start
        (t.map.mapRange span.start span.stop).stop = t.parsed.slice span.start span.stop := by
  have hm := h.founded.wellFormed
  have hne := List.ne_nil_of_mem hs
  have hspan := hm.targetSpan_inside hne h.founded.targetsIn
  refine ⟨Nat.le_trans (hm.mapRange_inside _ _).2 hspan.2, ?_⟩
  have hslice := h.copies.slice hm hs hlin (i := span.start) (n := span.stop - span.start) hin.1
    (by have := hin.2; omega)
  rw [hm.mapRange_of_linear hs hlin hin.1 hlt hin.2, hslice, Nat.add_sub_cancel' hlt.le]

/-- An empty range in a linear segment goes over to an empty one. -/
theorem image_of_le (hs : s ∈ t.map.segments) (hlin : s.linear = true)
    (hin : span.Inside s.parsed) (hle : span.stop ≤ span.start) :
    (t.map.mapRange span.start span.stop).stop ≤ (t.map.mapRange span.start span.stop).start ∨
      buffer = [] := by
  rcases h.solid s hs hlin with hlt | hnil
  · exact .inl (h.founded.wellFormed.mapRange_of_linear_of_le hs hlin hlt hin.1 hin.2 hle)
  · exact .inr hnil

/-- A location that holds what a range in a linear segment goes over to holds its bytes. -/
theorem slice_of_image (hs : s ∈ t.map.segments) (hlin : s.linear = true)
    (hin : span.Inside s.parsed) {start stop : Nat}
    (hlt : span.start < span.stop → (⟨start, stop⟩ : Span) = t.map.mapRange span.start span.stop)
    (hle : (t.map.mapRange span.start span.stop).stop ≤
      (t.map.mapRange span.start span.stop).start → stop ≤ start) :
    t.source.slice start stop = t.parsed.slice span.start span.stop := by
  rw [h.founded.source]
  by_cases hempty : span.start < span.stop
  · obtain ⟨hstop, hslice⟩ := h.slice_image hs hlin hin hempty
    have hup := t.map.mapRange_upright span.start span.stop
    rw [← hlt hempty] at hup hstop hslice
    rw [Source.slice_of_le hup hstop]
    exact hslice
  · have hnil : t.parsed.slice span.start span.stop = [] := by
      apply List.drop_eq_nil_of_le
      simp only [List.length_take]
      omega
    rw [hnil]
    rcases h.image_of_le hs hlin hin (Nat.le_of_not_lt hempty) with himage | rfl
    · exact Source.slice_of_stop_le (hle himage)
    · simp [Source.slice, Bytes.slice]

/-- The source bytes of a range in a linear segment are the parsed bytes. -/
theorem sourceBytes_of_linear (hs : s ∈ t.map.segments) (hlin : s.linear = true)
    (hin : span.Inside s.parsed) : t.sourceBytes span = t.parsed.slice span.start span.stop := by
  apply h.slice_of_image hs hlin hin
  · intro _
    rfl
  · exact id

/-- So are those of a node, although it is moved into its parent, if the spans of the parse nest. -/
theorem slice_location (hn : t.parse.root.Nested) {id : Nat} (hid : id < t.nodes.size)
    (hs : s ∈ t.map.segments) (hlin : s.linear = true)
    (hin : (t.node id).parsed.Inside s.parsed) :
    t.source.slice (t.node id).location.start (t.node id).location.stop =
      t.parsed.slice (t.node id).parsed.start (t.node id).parsed.stop := by
  obtain ⟨parent, slot, sub, hp⟩ := h.founded.built.exists_place hid
  rw [h.founded.built.parsed_of_place hp] at hin ⊢
  rw [h.founded.built.location_of_place hp]
  apply h.slice_of_image hs hlin hin
  · intro hlt
    have hup := t.map.mapRange_upright sub.label.span.start sub.label.span.stop
    have hstop := (h.slice_image hs hlin hin hlt).1
    rw [hp.locateIn_eq h.founded.wellFormed hn hlt]
    apply Source.span_locate_of_le hup
    rw [h.founded.source]
    exact hstop
  · intro himage
    exact Nat.le_of_eq (ParseTree.locateIn_of_empty himage _).symm

end SyntaxTree.Faithful

end Invariant

/-- Byte fidelity: in every tree that a resolution registers, a byte of a linear segment of the
map is the byte of the buffer it is led to. So where a span lies in one linear segment, the source
bytes are the parsed ones, and where the spans of the parse nest, the text of a node with such a
span is the text that was parsed for it. -/
theorem bytes_of_resolve {grammar : Grammar} {buffer : Bytes} {spec : ChainSpec} {forest : Forest}
    (hyields : spec.EditorsYield Edit.Spliced)
    (h : (ChainSpec.resolve grammar buffer spec).result = .ok forest) :
    ∀ t ∈ forest.order, grammar t.language t.parsed = .ok t.parse ∧
      ∀ s ∈ t.map.segments, s.linear = true →
        (∀ i ∈ s.parsed, i < t.parsed.length ∧ t.parsed[i]? = buffer[t.map.mapStart i]?) ∧
        (∀ span : Span, span.Inside s.parsed →
          t.sourceBytes span = t.parsed.slice span.start span.stop) ∧
        (t.parse.root.Nested → ∀ n : SyntaxNode, n.tree = t → n.id < t.nodes.size →
          n.data.parsed.Inside s.parsed →
          t.source.slice n.location.start n.location.stop =
              t.parsed.slice n.data.parsed.start n.data.parsed.stop ∧
            n.text = Utf8.decodeLossy (t.parsed.slice n.data.parsed.start n.data.parsed.stop)) := by
  intro t ht
  have hfaithful := faithful_of_resolve hyields h t ht
  refine ⟨hfaithful.founded.parse, fun s hs hlin => ⟨?_, ?_, ?_⟩⟩
  · intro i hi
    exact hfaithful.byte hs hlin hi
  · intro span hin
    exact hfaithful.sourceBytes_of_linear hs hlin hin
  · rintro hn ⟨_, id⟩ rfl hid hin
    have hslice := hfaithful.slice_location hn hid hs hlin hin
    exact ⟨hslice, congrArg Utf8.decodeLossy hslice⟩

/-- The script of the sample: its bytes are copied as they stand between the markers. -/
theorem bytes_sample :
    (Sample.spec.EditorsYield Edit.Spliced ∧
      (ChainSpec.resolve Sample.grammar Sample.buffer Sample.spec).result = .ok Sample.forest ∧
      Sample.scriptTree ∈ Sample.forest.order ∧
      (⟨⟨0, 6⟩, ⟨5, 11⟩, true⟩ : Segment) ∈ Sample.scriptTree.map.segments ∧
      Sample.scriptTree.parse.root.Nested ∧ 1 < Sample.scriptTree.nodes.size ∧
      (Sample.scriptTree.node 1).parsed.Inside ⟨0, 6⟩) ∧
    Sample.scriptTree.parsed[2]? = Sample.buffer[Sample.scriptTree.map.mapStart 2]? ∧
    Sample.scriptTree.map.mapStart 2 = 7 ∧
    Sample.scriptTree.sourceBytes ⟨1, 4⟩ = Bytes.ofString "bcd" ∧
    (⟨Sample.scriptTree, 1⟩ : SyntaxNode).text = Utf8.decodeLossy (Bytes.ofString "abcdef") := by
  have hyields := Sample.editorsYield
  have hrun := Sample.result_resolve
  have ht : Sample.scriptTree ∈ Sample.forest.order := List.get_mem _ _
  have hs : (⟨⟨0, 6⟩, ⟨5, 11⟩, true⟩ : Segment) ∈ Sample.scriptTree.map.segments := by
    decide +kernel
  obtain ⟨hparse, hsegments⟩ := bytes_of_resolve hyields hrun Sample.scriptTree ht
  obtain ⟨hbyte, hrange, hnode⟩ := hsegments _ hs rfl
  have hn := Sample.nested_of_grammar hparse
  have hsize : 1 < Sample.scriptTree.nodes.size := by decide +kernel
  have hin : (Sample.scriptTree.node 1).parsed.Inside ⟨0, 6⟩ := by decide +kernel
  have htext := (hnode hn ⟨Sample.scriptTree, 1⟩ rfl hsize hin).2
  refine ⟨⟨hyields, hrun, ht, hs, hn, hsize, hin⟩, (hbyte 2 (by decide)).2, ?_, ?_, ?_⟩
  · decide +kernel
  · rw [hrange ⟨1, 4⟩ (by decide)]
    decide +kernel
  · rw [htext]
    exact congrArg Utf8.decodeLossy (by decide +kernel)

end Polyglot
