import Polyglot.Proofs.Syntax.Locations
import Polyglot.Syntax.Navigation

/-!
# Parents, children and siblings

A node of a tree that was built from a parse knows its parent and its place there, and the parent
lists its children. The two say the same (`Built.child_iff`), so a node splits the list of its
parent's children at its own place. What stands next to it is read off the split (`Between`). This is
the same from either side, and so going right and going left undo each other.

A search for a named sibling moves on from sibling to sibling. The moves run through the children behind
a node or before it (`Built.trail_next`, `Built.trail_previous`), so the search finds the first named
one of these (`Trail.seek_eq`).
-/

set_option autoImplicit false

namespace Polyglot

namespace ParseTree

theorem getElem?_childIndices (next : Nat) (l : List ParseTree) (k : Nat) :
    (childIndices next l)[k]? = l[k]?.map fun _ => next + sizeAll (l.take k) := by
  induction l generalizing next k with
  | nil => rfl
  | cons t l ih =>
    cases k with
    | zero => rfl
    | succ k =>
      simp only [childIndices, List.getElem?_cons_succ, ih, List.take_succ_cons, sizeAll,
        Nat.add_assoc]

theorem length_childIndices (next : Nat) (l : List ParseTree) :
    (childIndices next l).length = l.length := by
  induction l generalizing next with
  | nil => rfl
  | cons t l ih => rw [childIndices, List.length_cons, ih, List.length_cons]

theorem length_le_sizeAll (l : List ParseTree) : l.length ≤ sizeAll l := by
  induction l with
  | nil => exact Nat.le_refl 0
  | cons t l ih =>
    have hpos := t.size_pos
    rw [sizeAll, List.length_cons]
    omega

section Places

variable {map : OffsetMap} {source : Source} {root t : ParseTree} {label : ParseNode}
  {children : List ParseTree} {parent : Option (Nat × Location)} {index slot k : Nat}

/-- The place of the child at a slot. -/
theorem Placed.child_of_getElem?
    (h : Placed map source root parent index slot (.node label children))
    (ht : children[k]? = some t) :
    Placed map source root (some (index, locateIn map source (parent.map (·.2)) label.span))
      (index + 1 + sizeAll (children.take k)) k t := by
  obtain ⟨hk, rfl⟩ := List.getElem?_eq_some_iff.1 ht
  have hsplit : children = children.take k ++ children[k] :: children.drop (k + 1) := by simp
  rw [hsplit] at h
  have hchild := h.child
  rwa [List.length_take, Nat.min_eq_left (Nat.le_of_lt hk)] at hchild

/-- A subtree takes up indices of the parse only. -/
theorem Placed.index_add_size_le (h : Placed map source root parent index slot t) :
    index + t.size ≤ root.size := by
  induction h with
  | root => omega
  | child above ih =>
    simp only [size, sizeAll_append, sizeAll] at ih
    omega

end Places

end ParseTree

namespace SyntaxTree

variable {t : SyntaxTree} {id up slot i j : Nat}

/-- There is no node past the last one. -/
theorem node_of_le (h : t.nodes.size ≤ id) : t.node id = default := by
  unfold node
  rw [Array.getD_eq_getD_getElem?, Array.getElem?_eq_none h]
  rfl

theorem lt_of_parent (h : (t.node id).parent = some up) : id < t.nodes.size := by
  by_contra hid
  rw [node_of_le (Nat.le_of_not_lt hid)] at h
  cases h

theorem Built.size_nodes (h : t.Built) : t.nodes.size = t.parse.root.size := by
  rw [h.nodes, List.size_toArray, ParseTree.length_layout]

section Place

variable {parent : Option (Nat × Location)} {sub : ParseTree}

theorem Built.children_of_place (h : t.Built) (hp : t.Places parent id slot sub) :
    (t.node id).children = ParseTree.childIndices (id + 1) sub.children := by
  cases sub with
  | node label children =>
    rw [h.node_of_place hp]
    rfl

theorem Built.slot_of_place (h : t.Built) (hp : t.Places parent id slot sub) :
    (t.node id).slot = slot := by
  cases sub with
  | node label children => rw [h.node_of_place hp]

/-- A child of a node stands for a child of the node's subtree. -/
theorem Built.place_of_child (h : t.Built) {label : ParseNode} {children : List ParseTree}
    (hp : t.Places parent up slot (.node label children)) {k : Nat}
    (hchild : (t.node up).children[k]? = some id) :
    ∃ u, children[k]? = some u ∧ id = up + 1 + ParseTree.sizeAll (children.take k) ∧
      t.Places (some (up, (t.node up).location)) id k u := by
  rw [h.children_of_place hp, ParseTree.getElem?_childIndices] at hchild
  obtain ⟨u, hu, rfl⟩ := Option.map_eq_some_iff.1 hchild
  rw [h.location_of_place hp]
  exact ⟨u, hu, rfl, hp.child_of_getElem? hu⟩

end Place

/-- A node lists another as a child at a place just when the other names it as its parent and the
place as its own. -/
theorem Built.child_iff (h : t.Built) :
    (t.node up).children[slot]? = some id ↔
      (t.node id).parent = some up ∧ (t.node id).slot = slot := by
  constructor
  · intro hchild
    by_cases hup : up < t.nodes.size
    · obtain ⟨parent, slot', ⟨label, children⟩, hp⟩ := h.exists_place hup
      obtain ⟨u, -, -, hu⟩ := h.place_of_child hp hchild
      exact ⟨h.parent_of_place hu, h.slot_of_place hu⟩
    · rw [node_of_le (Nat.le_of_not_lt hup)] at hchild
      cases hchild
  · rintro ⟨hparent, rfl⟩
    obtain ⟨parent, slot, sub, hp⟩ := h.exists_place (lt_of_parent hparent)
    rw [h.parent_of_place hp] at hparent
    rw [h.slot_of_place hp]
    cases hp with
    | root => cases hparent
    | @child above index slot' label before behind _ habove =>
      obtain rfl : index = up := Option.some.inj hparent
      rw [h.children_of_place habove, ParseTree.getElem?_childIndices]
      simp [ParseTree.children]

/-- Only the root has nothing above it. -/
theorem Built.parent_eq_none_iff (h : t.Built) (hid : id < t.nodes.size) :
    (t.node id).parent = none ↔ id = 0 := by
  rcases h.eq_root_or_inside hid with ⟨rfl, hnone⟩ | ⟨up, hlt, hup, -⟩
  · exact ⟨fun _ => rfl, fun _ => hnone⟩
  · rw [hup]
    exact ⟨fun hnone => (nomatch hnone), by omega⟩

/-! ## Siblings -/

/-- Some node has both as children, the one left of the other, with the given ones between. -/
def Between (t : SyntaxTree) (i j : Nat) (between : List Nat) : Prop :=
  ∃ up before behind, (t.node up).children = before ++ i :: (between ++ j :: behind)

/-- A list split at the element of a place. -/
theorem split_of_getElem? {l : List Nat} {k : Nat} (h : l[k]? = some i) :
    l = l.take k ++ i :: l.drop (k + 1) := by
  obtain ⟨hk, rfl⟩ := List.getElem?_eq_some_iff.1 h
  simp

theorem Built.of_split (h : t.Built) {before behind : List Nat}
    (hsplit : (t.node up).children = before ++ i :: behind) :
    (t.node i).parent = some up ∧ (t.node i).slot = before.length :=
  h.child_iff.1 (by simp [hsplit])

theorem Built.next?_eq_some_iff (h : t.Built) :
    (⟨t, i⟩ : SyntaxNode).next? = some ⟨t, j⟩ ↔ t.Between i j [] := by
  have hnext : (⟨t, i⟩ : SyntaxNode).next? = some ⟨t, j⟩ ↔ ∃ up, (t.node i).parent = some up ∧
      (t.node up).children[(t.node i).slot + 1]? = some j := by
    simp [SyntaxNode.next?, SyntaxNode.parent?, SyntaxNode.child?, SyntaxNode.data,
      SyntaxNode.inTree, Option.bind_eq_some_iff]
  rw [hnext]
  constructor
  · rintro ⟨up, hparent, hj⟩
    have hi := split_of_getElem? (h.child_iff.2 ⟨hparent, rfl⟩)
    rw [← Nat.add_zero ((t.node i).slot + 1), ← List.getElem?_drop] at hj
    have hrest := split_of_getElem? hj
    rw [List.take_zero, List.nil_append] at hrest
    rw [hrest] at hi
    exact ⟨up, _, _, hi⟩
  · rintro ⟨up, before, behind, hsplit⟩
    obtain ⟨hparent, hslot⟩ := h.of_split hsplit
    refine ⟨up, hparent, ?_⟩
    rw [hsplit, hslot]
    simp

theorem Built.previous?_eq_some_iff (h : t.Built) :
    (⟨t, j⟩ : SyntaxNode).previous? = some ⟨t, i⟩ ↔ t.Between i j [] := by
  have hprevious : (⟨t, j⟩ : SyntaxNode).previous? = some ⟨t, i⟩ ↔
      ∃ up, (t.node j).parent = some up ∧
        ∃ slot, (t.node j).slot = slot + 1 ∧ (t.node up).children[slot]? = some i := by
    unfold SyntaxNode.previous?
    cases hslot : (t.node j).slot <;>
      simp [SyntaxNode.parent?, SyntaxNode.child?, SyntaxNode.data, SyntaxNode.inTree,
        Option.bind_eq_some_iff, hslot]
  rw [hprevious]
  constructor
  · rintro ⟨up, hparent, slot, hslot, hi⟩
    have hj : (t.node up).children[slot + 1]? = some j := h.child_iff.2 ⟨hparent, hslot⟩
    rw [← Nat.add_zero (slot + 1), ← List.getElem?_drop] at hj
    have hrest := split_of_getElem? hj
    rw [List.take_zero, List.nil_append] at hrest
    have hsplit := split_of_getElem? hi
    rw [hrest] at hsplit
    exact ⟨up, _, _, hsplit⟩
  · rintro ⟨up, before, behind, hsplit⟩
    have hsplit' : (t.node up).children = (before ++ [i]) ++ j :: behind := by simp [hsplit]
    obtain ⟨hparent, hslot⟩ := h.of_split hsplit'
    refine ⟨up, hparent, before.length, by simpa using hslot, ?_⟩
    rw [hsplit]
    simp

/-- Going right and going left undo each other. -/
theorem Built.next?_iff_previous? (h : t.Built) :
    (⟨t, i⟩ : SyntaxNode).next? = some ⟨t, j⟩ ↔ (⟨t, j⟩ : SyntaxNode).previous? = some ⟨t, i⟩ := by
  rw [h.next?_eq_some_iff, h.previous?_eq_some_iff]

/-! ## Searches among siblings -/

/-- The nodes that some moves lead to, one after the other, until there is none. -/
inductive Trail (move : SyntaxNode → Option SyntaxNode) : SyntaxNode → List SyntaxNode → Prop
  | stop {n : SyntaxNode} (h : move n = none) : Trail move n []
  | on {n s : SyntaxNode} {rest : List SyntaxNode} (h : move n = some s) (more : Trail move s rest) :
      Trail move n (s :: rest)

/-- A search finds the first node on its trail that is wanted. -/
theorem Trail.seek_eq {move : SyntaxNode → Option SyntaxNode} {wanted : Node → Bool}
    {n : SyntaxNode} {l : List SyntaxNode} (h : Trail move n l) {fuel : Nat}
    (hfuel : l.length ≤ fuel) : n.seek move wanted fuel = l.find? fun s => wanted s.data := by
  induction h generalizing fuel with
  | stop hnone => cases fuel with
    | zero => rfl
    | succ fuel => simp only [SyntaxNode.seek, hnone, List.find?_nil]
  | @on n s rest hsome more ih => cases fuel with
    | zero => cases hfuel
    | succ fuel =>
      simp only [SyntaxNode.seek, hsome, List.find?_cons]
      rw [ih (Nat.le_of_succ_le_succ hfuel)]
      cases wanted s.data <;> rfl

theorem next?_eq (hparent : (t.node i).parent = some up) :
    (⟨t, i⟩ : SyntaxNode).next? =
      (t.node up).children[(t.node i).slot + 1]?.map (SyntaxNode.mk t) := by
  simp only [SyntaxNode.next?, SyntaxNode.parent?, SyntaxNode.data, hparent]
  rfl

theorem previous?_of_zero (hslot : (t.node j).slot = 0) :
    (⟨t, j⟩ : SyntaxNode).previous? = none := by
  unfold SyntaxNode.previous?
  cases hparent : (⟨t, j⟩ : SyntaxNode).parent? <;> simp [SyntaxNode.data, hslot]

theorem previous?_of_succ {slot : Nat} (hparent : (t.node j).parent = some up)
    (hslot : (t.node j).slot = slot + 1) :
    (⟨t, j⟩ : SyntaxNode).previous? = (t.node up).children[slot]?.map (SyntaxNode.mk t) := by
  simp only [SyntaxNode.previous?, SyntaxNode.parent?, SyntaxNode.data, hparent, hslot]
  rfl

/-- Moves to the right run through the children behind a node. -/
theorem Built.trail_next (h : t.Built) (hparent : (t.node i).parent = some up) :
    Trail SyntaxNode.next? ⟨t, i⟩
      (((t.node up).children.drop ((t.node i).slot + 1)).map (SyntaxNode.mk t)) := by
  generalize hrest : (t.node up).children.drop ((t.node i).slot + 1) = rest
  have hhead : (t.node up).children[(t.node i).slot + 1]? = rest.head? := by
    rw [← hrest, List.head?_drop]
  induction rest generalizing i with
  | nil =>
    refine .stop ?_
    rw [next?_eq hparent, hhead]
    rfl
  | cons j rest ih =>
    obtain ⟨hup, hslot⟩ := h.child_iff.1 hhead
    have hdrop : (t.node up).children.drop ((t.node j).slot + 1) = rest := by
      rw [hslot, ← List.tail_drop, hrest, List.tail_cons]
    refine .on ?_ (ih hup hdrop (by rw [← hdrop, List.head?_drop]))
    rw [next?_eq hparent, hhead]
    rfl

/-- Moves to the left run through the children before it, backwards. -/
theorem Built.trail_previous (h : t.Built) (hparent : (t.node j).parent = some up) :
    Trail SyntaxNode.previous? ⟨t, j⟩
      (((t.node up).children.take (t.node j).slot).reverse.map (SyntaxNode.mk t)) := by
  generalize hslot : (t.node j).slot = slot
  induction slot generalizing j with
  | zero => exact .stop (previous?_of_zero hslot)
  | succ slot ih =>
    have hj : (t.node up).children[slot + 1]? = some j := h.child_iff.2 ⟨hparent, hslot⟩
    have hlt : slot < (t.node up).children.length :=
      Nat.lt_of_succ_lt (List.getElem?_eq_some_iff.1 hj).1
    have hi := List.getElem?_eq_getElem hlt
    obtain ⟨hup, hslot'⟩ := h.child_iff.1 hi
    rw [List.take_succ_eq_append_getElem hlt, List.reverse_append, List.map_append]
    refine .on ?_ (ih hup hslot')
    rw [previous?_of_succ hparent hslot, hi]
    rfl

/-- A node has fewer children than the tree has nodes. -/
theorem Built.length_children_le (h : t.Built) (up : Nat) :
    (t.node up).children.length ≤ t.nodes.size := by
  by_cases hup : up < t.nodes.size
  · obtain ⟨parent, slot, ⟨label, children⟩, hp⟩ := h.exists_place hup
    have hlength := ParseTree.length_le_sizeAll children
    have hsize := hp.index_add_size_le
    rw [h.children_of_place hp, ParseTree.length_childIndices, h.size_nodes]
    simp only [ParseTree.size, ParseTree.children] at hsize ⊢
    omega
  · rw [node_of_le (Nat.le_of_not_lt hup)]
    exact Nat.zero_le _

theorem Built.nextNamed?_eq (h : t.Built) (hparent : (t.node i).parent = some up) :
    (⟨t, i⟩ : SyntaxNode).nextNamed? =
      (((t.node up).children.drop ((t.node i).slot + 1)).find? fun id =>
        (t.node id).flags.named).map (SyntaxNode.mk t) := by
  have hfuel := h.length_children_le up
  rw [SyntaxNode.nextNamed?, (h.trail_next hparent).seek_eq, List.find?_map]
  · rfl
  · rw [List.length_map, List.length_drop]
    exact Nat.le_trans (Nat.sub_le _ _) hfuel

theorem Built.previousNamed?_eq (h : t.Built) (hparent : (t.node j).parent = some up) :
    (⟨t, j⟩ : SyntaxNode).previousNamed? =
      (((t.node up).children.take (t.node j).slot).reverse.find? fun id =>
        (t.node id).flags.named).map (SyntaxNode.mk t) := by
  have hfuel := h.length_children_le up
  rw [SyntaxNode.previousNamed?, (h.trail_previous hparent).seek_eq, List.find?_map]
  · rfl
  · rw [List.length_map, List.length_reverse]
    exact Nat.le_trans (List.length_take_le' _ _) hfuel

/-- None of the nodes is named. -/
def Unnamed (t : SyntaxTree) (ids : List Nat) : Prop :=
  ∀ id ∈ ids, (t.node id).flags.named = false

theorem Built.nextNamed?_eq_some_iff (h : t.Built) :
    (⟨t, i⟩ : SyntaxNode).nextNamed? = some ⟨t, j⟩ ↔
      (t.node j).flags.named = true ∧ ∃ between, t.Between i j between ∧ t.Unnamed between := by
  constructor
  · intro hnext
    cases hparent : (t.node i).parent with
    | none =>
      have hnone : (⟨t, i⟩ : SyntaxNode).next? = none := by
        simp only [SyntaxNode.next?, SyntaxNode.parent?, SyntaxNode.data, hparent]
        rfl
      rw [SyntaxNode.nextNamed?, (Trail.stop hnone).seek_eq (Nat.zero_le _)] at hnext
      cases hnext
    | some up =>
      rw [h.nextNamed?_eq hparent] at hnext
      obtain ⟨id, hfound, ⟨⟩⟩ := Option.map_eq_some_iff.1 hnext
      obtain ⟨hnamed, between, behind, hrest, hbetween⟩ := List.find?_eq_some_iff_append.1 hfound
      have hsplit := split_of_getElem? (h.child_iff.2 ⟨hparent, rfl⟩)
      rw [hrest] at hsplit
      exact ⟨hnamed, between, ⟨up, _, _, hsplit⟩, fun m hm => by simpa using hbetween m hm⟩
  · rintro ⟨hnamed, between, ⟨up, before, behind, hsplit⟩, hbetween⟩
    obtain ⟨hparent, hslot⟩ := h.of_split hsplit
    have hfound : ((t.node up).children.drop ((t.node i).slot + 1)).find?
        (fun id => (t.node id).flags.named) = some j := by
      apply List.find?_eq_some_iff_append.2
      refine ⟨hnamed, between, behind, ?_, fun m hm => by simpa using hbetween m hm⟩
      rw [hsplit, hslot]
      simp
    rw [h.nextNamed?_eq hparent, hfound]
    rfl

theorem Built.previousNamed?_eq_some_iff (h : t.Built) :
    (⟨t, j⟩ : SyntaxNode).previousNamed? = some ⟨t, i⟩ ↔
      (t.node i).flags.named = true ∧ ∃ between, t.Between i j between ∧ t.Unnamed between := by
  constructor
  · intro hprevious
    cases hparent : (t.node j).parent with
    | none =>
      have hnone : (⟨t, j⟩ : SyntaxNode).previous? = none := by
        simp only [SyntaxNode.previous?, SyntaxNode.parent?, SyntaxNode.data, hparent]
        rfl
      rw [SyntaxNode.previousNamed?, (Trail.stop hnone).seek_eq (Nat.zero_le _)] at hprevious
      cases hprevious
    | some up =>
      rw [h.previousNamed?_eq hparent] at hprevious
      obtain ⟨id, hfound, ⟨⟩⟩ := Option.map_eq_some_iff.1 hprevious
      obtain ⟨hnamed, between, before, hfront, hbetween⟩ := List.find?_eq_some_iff_append.1 hfound
      have hsplit := split_of_getElem? (h.child_iff.2 ⟨hparent, rfl⟩)
      rw [List.reverse_eq_iff.1 hfront, List.reverse_append, List.reverse_cons, List.append_assoc,
        List.append_assoc] at hsplit
      refine ⟨hnamed, between.reverse, ⟨up, _, _, hsplit⟩, fun m hm => ?_⟩
      simpa using hbetween m (List.mem_reverse.1 hm)
  · rintro ⟨hnamed, between, ⟨up, before, behind, hsplit⟩, hbetween⟩
    rw [← List.cons_append, ← List.append_assoc] at hsplit
    obtain ⟨hparent, hslot⟩ := h.of_split hsplit
    have hfound : ((t.node up).children.take (t.node j).slot).reverse.find?
        (fun id => (t.node id).flags.named) = some i := by
      apply List.find?_eq_some_iff_append.2
      refine ⟨hnamed, between.reverse, before.reverse, ?_, fun m hm => ?_⟩
      · rw [hsplit, hslot, List.take_left]
        simp
      · simpa using hbetween m (List.mem_reverse.1 hm)
    rw [h.previousNamed?_eq hparent, hfound]
    rfl

/-- Between named nodes, going right to the nearest named one and going left to it undo each
other. -/
theorem Built.nextNamed?_iff_previousNamed? (h : t.Built) (hi : (t.node i).flags.named = true)
    (hj : (t.node j).flags.named = true) :
    (⟨t, i⟩ : SyntaxNode).nextNamed? = some ⟨t, j⟩ ↔
      (⟨t, j⟩ : SyntaxNode).previousNamed? = some ⟨t, i⟩ := by
  rw [h.nextNamed?_eq_some_iff, h.previousNamed?_eq_some_iff, hi, hj]

end SyntaxTree

end Polyglot
