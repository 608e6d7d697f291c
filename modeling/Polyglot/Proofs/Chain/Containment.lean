import Polyglot.Proofs.Chain.Maps

/-!
# Containment

Every position that a forest reports lies where it belongs: a node inside its parent and inside
the origin of its tree, the origin of a tree inside that of the tree it was cut out of, and so
everything inside the buffer. The grammar may say what it likes about the spans of its nodes.
-/

set_option autoImplicit false

namespace Polyglot

section Origins

variable {grammar : Grammar} {buffer : Bytes} {occurrence : Nat} {c : Cut}
  {parent tree : SyntaxTree}

/-- What is cut out of a tree comes from inside the origin of the tree. -/
theorem SyntaxTree.Founded.origin_contains_cut (hp : parent.Founded grammar buffer)
    (hgives : c.Gives grammar occurrence parent tree)
    (hyields : ∀ w, c.chain.editor = some w → w.Yields Edit.Made) :
    parent.origin.contains tree.origin = true := by
  obtain ⟨edit, parse, -, hinner, -, rfl⟩ := hp.exists_edit hgives
    (fun _ _ => Edit.Made.fits) (fun _ => .spliced .unchanged) hyields
  have hspan := OffsetMap.targetSpan_andThen hinner.wellFormed hp.wellFormed hinner.targetsIn
    hinner.nonempty
  rw [hp.built.origin]
  exact Source.contains_locate hspan.1 (OffsetMap.targetSpan_upright _) hspan.2

end Origins

/-- Containment of every reported position. A node's location has its ends in order, in the
buffer, and with their points; it lies in the location of the node above and in the origin of the
tree. The origin of a tree lies in the buffer and in the origin of the tree it was cut out of, which
there is for every tree but that of the whole buffer. -/
theorem positions_of_resolve {grammar : Grammar} {buffer : Bytes} {spec : ChainSpec}
    {forest : Forest} (hyields : spec.EditorsYield Edit.Made)
    (h : (ChainSpec.resolve grammar buffer spec).result = .ok forest) :
    (∀ t ∈ forest.order,
      (∀ id < t.nodes.size,
        ((t.node id).location.start ≤ (t.node id).location.stop ∧
          (t.node id).location.startPoint =
            (LineIndex.ofBytes buffer).pointOf (t.node id).location.start ∧
          (t.node id).location.stopPoint =
            (LineIndex.ofBytes buffer).pointOf (t.node id).location.stop) ∧
        t.origin.contains (t.node id).location = true ∧
        ((id = 0 ∧ (t.node id).parent = none) ∨
          ∃ up < id, (t.node id).parent = some up ∧
            (t.node up).location.contains (t.node id).location = true)) ∧
      t.origin.start ≤ t.origin.stop ∧ t.origin.stop ≤ buffer.length) ∧
    (∀ t ∈ forest.order,
      ChainSpec.parseRegion grammar spec.entry 0 buffer (OffsetMap.identity buffer.length)
          (Source.ofBytes buffer) = .ok t ∨
        ∃ p ∈ forest.order, ∃ (c : Cut) (occurrence : Nat),
          c.chain ∈ spec.nested ∧ c.Gives grammar occurrence p t) ∧
    ∀ p ∈ forest.order, ∀ (c : Cut) (occurrence : Nat) (t : SyntaxTree),
      c.chain ∈ spec.nested → c.Gives grammar occurrence p t →
      p.origin.contains t.origin = true := by
  have hfounded := founded_of_resolve hyields h
  refine ⟨?_, ?_, ?_⟩
  · intro t ht
    obtain ⟨hbuilt, hsource, -, hm, -, -⟩ := hfounded t ht
    refine ⟨?_, ?_⟩
    · intro id hid
      have hlocates := hbuilt.locates hid
      rw [hsource] at hlocates
      refine ⟨⟨hlocates.upright, hlocates.startPoint, hlocates.stopPoint⟩, ?_, ?_⟩
      · exact hbuilt.origin_contains hm hid
      · exact hbuilt.eq_root_or_inside hid
    · have hlocates := hbuilt.locates_origin
      rw [hsource] at hlocates
      exact ⟨hlocates.upright, hlocates.bounded⟩
  · refine forall_order_of_resolve h ?_ ?_
    · intro tree hroot
      exact .inl hroot
    · intro c occurrence parent hparent tree hnested hgives _
      exact .inr ⟨parent, hparent, c, occurrence, hnested, hgives⟩
  · intro p hp c occurrence t hnested hgives
    exact (hfounded p hp).origin_contains_cut hgives (hyields c.chain hnested)

/-- The script of the sample in its page, and the item of the script in the script. -/
theorem positions_sample :
    (Sample.spec.EditorsYield Edit.Made ∧
      (ChainSpec.resolve Sample.grammar Sample.buffer Sample.spec).result = .ok Sample.forest ∧
      Sample.pageTree ∈ Sample.forest.order ∧ Sample.scriptTree ∈ Sample.forest.order ∧
      1 < Sample.scriptTree.nodes.size ∧ Sample.script ∈ Sample.spec.nested ∧
      (⟨Sample.script, ⟨1, 14⟩⟩ : Cut).Gives Sample.grammar 0 Sample.pageTree Sample.scriptTree) ∧
    Sample.scriptTree.origin.contains (Sample.scriptTree.node 1).location = true ∧
    (Sample.scriptTree.node 1).location.span = ⟨5, 11⟩ ∧
    Sample.pageTree.origin.contains Sample.scriptTree.origin = true ∧
    Sample.scriptTree.origin.span = ⟨1, 14⟩ := by
  have hyields := Sample.editorsYield.made
  have hrun := Sample.result_resolve
  have hpage : Sample.pageTree ∈ Sample.forest.order := List.get_mem _ _
  have hscript : Sample.scriptTree ∈ Sample.forest.order := List.get_mem _ _
  have hsize : 1 < Sample.scriptTree.nodes.size := by decide +kernel
  have hnested : Sample.script ∈ Sample.spec.nested := List.mem_cons_self
  have hgives : (⟨Sample.script, ⟨1, 14⟩⟩ : Cut).Gives Sample.grammar 0 Sample.pageTree
      Sample.scriptTree := by
    constructor
    · exact ⟨_, rfl, List.mem_singleton.2 rfl⟩
    · decide
    · rfl
  obtain ⟨hnodes, -, horigins⟩ := positions_of_resolve hyields hrun
  have hnode := (hnodes Sample.scriptTree hscript).1 1 hsize
  have horigin := horigins Sample.pageTree hpage _ 0 Sample.scriptTree hnested hgives
  exact ⟨⟨hyields, hrun, hpage, hscript, hsize, hnested, hgives⟩, hnode.2.1, by decide +kernel,
    horigin, by decide +kernel⟩

end Polyglot
