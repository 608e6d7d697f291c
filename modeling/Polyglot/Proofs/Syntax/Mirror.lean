import Polyglot.Proofs.Syntax.Walks

/-!
# A tree mirrors its parse

What is stored from a parse says all that the parse says. `Mirrors` collects it: the loop ends and
has stored each node of the parse once, in pre-order; below the root the nodes hang together as in
the parse; the links agree with each other; and whatever way one takes through the tree, over
children, siblings, walks or the numbers of the parse, one meets the nodes that one should.
-/

set_option autoImplicit false

namespace Polyglot

/-- What a node keeps of what the grammar says about it. -/
def Node.label (n : Node) : ParseNode :=
  ⟨n.parseId, n.kind, n.flags, n.field, n.parsed⟩

namespace ParseTree

section Labels

variable (map : OffsetMap) (source : Source)

mutual

theorem labels_layout : ∀ (t : ParseTree) (parent : Option (Nat × Location)) (next slot : Nat),
    (layout map source parent next slot t).map Node.label = t.preorder
  | .node label children, parent, next, slot => by
    rw [layout, List.map_cons, labels_layoutAll children, preorder]
    rfl

theorem labels_layoutAll : ∀ (l : List ParseTree) (parent : Nat × Location) (next slot : Nat),
    (layoutAll map source parent next slot l).map Node.label = preorderAll l
  | [], _, _, _ => rfl
  | t :: rest, parent, next, slot => by
    rw [layoutAll, List.map_append, labels_layout t, labels_layoutAll rest, preorderAll]

end

end Labels

end ParseTree

namespace SyntaxTree

variable {t : SyntaxTree} {id : Nat}

mutual

/-- The node of an index is what a parse has at its root, and its children show the parse's
children. -/
def Shows (t : SyntaxTree) (id : Nat) : ParseTree → Prop
  | .node label children => (t.node id).label = label ∧ t.ShowsAll (t.node id).children children

/-- The nodes of the indices show the trees, one by one. -/
def ShowsAll (t : SyntaxTree) : List Nat → List ParseTree → Prop
  | [], [] => True
  | id :: ids, u :: rest => t.Shows id u ∧ t.ShowsAll ids rest
  | _, _ => False

end

mutual

/-- A node shows the subtree that it stands for. -/
theorem Built.shows_of_place (h : t.Built) : ∀ (sub : ParseTree)
    {parent : Option (Nat × Location)} {id slot : Nat}, t.Places parent id slot sub →
    t.Shows id sub
  | .node label children, _, id, _, hp => by
    have hchildren := h.showsAll_among children [] hp
    rw [Shows, h.children_of_place hp]
    exact ⟨by rw [h.node_of_place hp, Node.label], hchildren⟩

theorem Built.showsAll_among (h : t.Built) : ∀ (l before : List ParseTree)
    {parent : Option (Nat × Location)} {id slot : Nat} {label : ParseNode},
    t.Places parent id slot (.node label (before ++ l)) →
    t.ShowsAll (ParseTree.childIndices (id + 1 + ParseTree.sizeAll before) l) l
  | [], _, _, _, _, _, _ => trivial
  | u :: rest, before, _, id, _, label, hp => by
    have hfirst := h.shows_of_place u hp.child
    rw [List.append_cons] at hp
    have hrest := h.showsAll_among rest (before ++ [u]) hp
    rw [ParseTree.sizeAll_concat, ← Nat.add_assoc] at hrest
    exact ⟨hfirst, hrest⟩

end

theorem Built.labels (h : t.Built) :
    t.nodes.toList.map Node.label = t.parse.root.preorder := by
  rw [h.nodes]
  exact ParseTree.labels_layout _ _ _ _ _ _

/-- The loop has ended with the nodes of the tree, a turn for each node of the parse. -/
theorem Built.turns (h : t.Built) :
    Construction.turns t.map t.source t.parse.root.size (Construction.start t.parse.root) =
      some ⟨t.nodes, []⟩ := by
  rw [h.nodes]
  exact Construction.turns_start _ _ _

/-- Where the parse numbers its nodes differently, the number of a node leads back to it. -/
theorem Built.indexOf?_parseId (h : t.Built) (hids : (t.parse.root.preorder.map (·.id)).Nodup)
    (hid : id < t.nodes.size) : t.indexOf? (t.node id).parseId = some id := by
  have hnumbers : (t.nodes.toList.map (·.parseId)).Nodup := by
    rw [← h.labels, List.map_map] at hids
    exact hids
  have hnode : t.node id = t.nodes[id] := by simp [node, hid]
  apply Array.findIdx?_eq_some_iff_getElem.2
  refine ⟨hid, by simp [hnode], ?_⟩
  intro j hj
  have hne := List.pairwise_iff_getElem.1 hnumbers j id
    (by simp only [List.length_map, Array.length_toList]; omega) (by simpa using hid) hj
  simpa [hnode] using hne

/-- The nodes of a tree are those of the parse that they were stored from, the links between them
agree, and every way through the tree meets what it should. -/
structure Mirrors (t : SyntaxTree) : Prop where
  /-- The loop ends, after a turn for each node of the parse. -/
  ends : Construction.turns t.map t.source t.parse.root.size (Construction.start t.parse.root) =
    some ⟨t.nodes, []⟩
  /-- The nodes are those of the parse, each one once and in pre-order, with their kinds, flags and
  fields. -/
  labels : t.nodes.toList.map Node.label = t.parse.root.preorder
  /-- They hang together as in the parse. -/
  shape : t.Shows 0 t.parse.root
  /-- Only the root has no parent. -/
  top : ∀ id < t.nodes.size, (t.node id).parent = none ↔ id = 0
  /-- A node is at its slot among the children of its parent, and nothing else is a child. -/
  links : ∀ up slot id, (t.node up).children[slot]? = some id ↔
    (t.node id).parent = some up ∧ (t.node id).slot = slot
  /-- What is below a node are the indices behind it, up to one; a walk from the node meets it and
  these in order. -/
  interval : ∀ id < t.nodes.size, ∃ stop, id < stop ∧ stop ≤ t.nodes.size ∧
    (∀ j, t.Above id j ↔ id < j ∧ j < stop) ∧
    (⟨t, id⟩ : SyntaxNode).walk = (List.range' id (stop - id)).map (SyntaxNode.mk t)
  /-- A walk from the root meets all nodes. -/
  whole : t.root.walk = t.allNodes
  /-- The number that the parse gives a node leads to the node. -/
  lookup : ∀ id < t.nodes.size, t.indexOf? (t.node id).parseId = some id
  /-- Going right and going left undo each other. -/
  siblings : ∀ i j, (⟨t, i⟩ : SyntaxNode).next? = some ⟨t, j⟩ ↔
    (⟨t, j⟩ : SyntaxNode).previous? = some ⟨t, i⟩
  /-- So they do among named nodes. -/
  namedSiblings : ∀ i j, (t.node i).flags.named = true → (t.node j).flags.named = true →
    ((⟨t, i⟩ : SyntaxNode).nextNamed? = some ⟨t, j⟩ ↔
      (⟨t, j⟩ : SyntaxNode).previousNamed? = some ⟨t, i⟩)

/-- A tree that was built from a parse with distinct numbers mirrors the parse. -/
theorem mirrors_of_built (h : t.Built) (hids : (t.parse.root.preorder.map (·.id)).Nodup) :
    t.Mirrors := by
  have hroot : t.Places none 0 0 t.parse.root := .root
  exact
    { ends := h.turns
      labels := h.labels
      shape := h.shows_of_place _ hroot
      top := fun _ hid => h.parent_eq_none_iff hid
      links := fun _ _ _ => h.child_iff
      interval := by
        intro id hid
        obtain ⟨parent, slot, sub, hp⟩ := h.exists_place hid
        have hpos := sub.size_pos
        have hle := hp.index_add_size_le
        rw [← h.size_nodes] at hle
        refine ⟨id + sub.size, by omega, hle, fun j => h.above_iff hp, ?_⟩
        rw [h.walk_eq hp, Nat.add_sub_cancel_left]
      whole := by
        rw [root, h.walk_eq hroot, allNodes, h.size_nodes, List.range_eq_range']
      lookup := fun _ hid => h.indexOf?_parseId hids hid
      siblings := fun _ _ => h.next?_iff_previous?
      namedSiblings := fun _ _ hi hj => h.nextNamed?_iff_previousNamed? hi hj }

/-- In the measured line the words are next to each other among the named nodes, with the comma
between them. -/
theorem mirrors_of_built_measured :
    (measured.Built ∧ (measured.parse.root.preorder.map (·.id)).Nodup) ∧ measured.Mirrors ∧
    (⟨measured, 5⟩ : SyntaxNode).previousNamed? = some ⟨measured, 1⟩ ∧
    (⟨measured, 1⟩ : SyntaxNode).walk.map (·.id) = [1, 2, 3] ∧
    measured.indexOf? 15 = some 5 := by
  have hbuilt : measured.Built := rfl
  have hids : (measured.parse.root.preorder.map (·.id)).Nodup := by decide +kernel
  have hmirrors := mirrors_of_built hbuilt hids
  refine ⟨⟨hbuilt, hids⟩, hmirrors, ?_, by decide +kernel, ?_⟩
  · apply (hmirrors.namedSiblings 1 5 (by decide +kernel) (by decide +kernel)).1
    have hparent : (measured.node 1).parent = some 0 := by decide +kernel
    have hfound : (((measured.node 0).children.drop ((measured.node 1).slot + 1)).find? fun id =>
        (measured.node id).flags.named) = some 5 := by decide +kernel
    rw [hbuilt.nextNamed?_eq hparent, hfound]
    rfl
  · have hlookup := hmirrors.lookup 5 (by decide +kernel)
    rwa [show (measured.node 5).parseId = 15 by decide +kernel] at hlookup

end SyntaxTree

end Polyglot
