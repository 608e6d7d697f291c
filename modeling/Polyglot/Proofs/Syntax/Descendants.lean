import Mathlib.Data.List.Sort
import Mathlib.Logic.Relation
import Polyglot.Proofs.Syntax.Links

/-!
# Descendants

The nodes below a node are those from which parent links lead up to it (`Above`). As a subtree takes
up as many indices as it has nodes, from its root on, these are the nodes of the indices behind it
(`Built.above_iff`). So the list of the descendants, which looks at the ancestors of every node, is a
run of indices (`Built.descendants_eq`), and a node's location holds those of its descendants.
-/

set_option autoImplicit false

namespace Polyglot

/-- The strict descendants of a node, by index: the nodes that have it among their ancestors. -/
def SyntaxNode.descendants (n : SyntaxNode) : List SyntaxNode :=
  n.tree.allNodes.filter fun d => (d.ancestors.map (·.id)).contains n.id

namespace SyntaxTree

variable {t : SyntaxTree} {id up slot i j : Nat} {parent : Option (Nat × Location)}
  {sub : ParseTree}

/-- The first node is a strict ancestor of the second: parent links lead up to it. -/
def Above (t : SyntaxTree) : Nat → Nat → Prop :=
  Relation.TransGen fun up id => (t.node id).parent = some up

/-- A child's subtree lies behind the node and within the indices of the node's subtree. -/
theorem Built.place_of_parent (h : t.Built) (hp : t.Places parent up slot sub)
    (hparent : (t.node id).parent = some up) :
    up < id ∧ ∃ slot' u, t.Places (some (up, (t.node up).location)) id slot' u ∧
      id + u.size ≤ up + sub.size := by
  cases sub with
  | node label children =>
    obtain ⟨u, hu, hid, hpu⟩ := h.place_of_child hp (h.child_iff.2 ⟨hparent, rfl⟩)
    refine ⟨by omega, _, u, hpu, ?_⟩
    have hsplit := congrArg ParseTree.sizeAll (List.take_append_drop (t.node id).slot children)
    obtain ⟨hk, rfl⟩ := List.getElem?_eq_some_iff.1 hu
    rw [← List.getElem_cons_drop hk, ParseTree.sizeAll_append, ParseTree.sizeAll] at hsplit
    simp only [ParseTree.size]
    omega

mutual

/-- The root of a subtree stands above all that is behind it in the subtree. -/
theorem Built.above_inside (h : t.Built) : ∀ (sub : ParseTree)
    {parent : Option (Nat × Location)} {id slot : Nat}, t.Places parent id slot sub →
    ∀ j, id < j → j < id + sub.size → t.Above id j
  | .node label children, parent, id, slot, hp, j, hlt, hj =>
    h.above_among children [] hp j (by simp only [ParseTree.sizeAll]; omega)
      (by simp only [ParseTree.size, List.nil_append] at hj ⊢; omega)

theorem Built.above_among (h : t.Built) : ∀ (l before : List ParseTree)
    {parent : Option (Nat × Location)} {id slot : Nat} {label : ParseNode},
    t.Places parent id slot (.node label (before ++ l)) →
    ∀ j, id + 1 + ParseTree.sizeAll before ≤ j →
      j < id + 1 + ParseTree.sizeAll (before ++ l) → t.Above id j
  | [], before, _, _, _, _, _, j, hle, hj => by
    rw [List.append_nil] at hj
    omega
  | u :: rest, before, _, id, _, label, hp, j, hle, hj => by
    have hchild := hp.child
    have habove : t.Above id (id + 1 + ParseTree.sizeAll before) :=
      .single (h.parent_of_place hchild)
    rcases Nat.eq_or_lt_of_le hle with rfl | hlt
    · exact habove
    · by_cases hin : j < id + 1 + ParseTree.sizeAll before + u.size
      · exact habove.trans (h.above_inside u hchild j hlt hin)
      · rw [List.append_cons] at hp hj
        exact h.above_among rest (before ++ [u]) hp j (by rw [ParseTree.sizeAll_concat]; omega) hj

end

/-- Below a node stands nothing but what its subtree takes up. -/
theorem Built.lt_of_above (h : t.Built) (habove : t.Above id j) :
    ∀ {parent : Option (Nat × Location)} {slot : Nat} {sub : ParseTree},
      t.Places parent id slot sub → id < j ∧ j < id + sub.size := by
  -- The induction goes down from the node, so that the places of its children are at hand.
  induction habove using Relation.TransGen.head_induction_on with
  | @single id hparent =>
    intro parent slot sub hp
    obtain ⟨hlt, slot', u, -, hsize⟩ := h.place_of_parent hp hparent
    have := u.size_pos
    omega
  | @head id below hparent _ ih =>
    intro parent slot sub hp
    obtain ⟨hlt, slot', u, hpu, hsize⟩ := h.place_of_parent hp hparent
    have := ih hpu
    omega

/-- The nodes below a node are those behind it in its subtree. -/
theorem Built.above_iff (h : t.Built) (hp : t.Places parent id slot sub) :
    t.Above id j ↔ id < j ∧ j < id + sub.size :=
  ⟨fun habove => h.lt_of_above habove hp, fun hj => h.above_inside sub hp j hj.1 hj.2⟩

/-- A node stands behind its parent, and inside it. -/
theorem Built.inside_of_parent (h : t.Built) (hparent : (t.node id).parent = some up) :
    up < id ∧ (t.node up).location.contains (t.node id).location = true := by
  rcases h.eq_root_or_inside (lt_of_parent hparent) with ⟨-, hnone⟩ | ⟨_, hlt, hup, hcontains⟩
  · rw [hnone] at hparent
    cases hparent
  · rw [hparent] at hup
    obtain rfl := Option.some.inj hup
    exact ⟨hlt, hcontains⟩

/-- A walk up that may take as many turns as there are nodes in front meets all ancestors. -/
theorem Built.mem_ancestorsFrom (h : t.Built) {fuel : Nat} (hfuel : j ≤ fuel) :
    i ∈ t.ancestorsFrom fuel j ↔ t.Above i j := by
  induction fuel generalizing j with
  | zero =>
    refine ⟨fun hmem => (nomatch hmem), fun habove => ?_⟩
    obtain ⟨up, -, hparent⟩ := Relation.TransGen.tail'_iff.1 habove
    have := (h.inside_of_parent hparent).1
    omega
  | succ fuel ih =>
    unfold ancestorsFrom
    cases hparent : (t.node j).parent with
    | none =>
      refine ⟨fun hmem => (nomatch hmem), fun habove => ?_⟩
      obtain ⟨up, -, hup⟩ := Relation.TransGen.tail'_iff.1 habove
      rw [hparent] at hup
      cases hup
    | some up =>
      have hlt := (h.inside_of_parent hparent).1
      rw [List.mem_cons, ih (by omega)]
      constructor
      · rintro (rfl | habove)
        · exact .single hparent
        · exact habove.tail hparent
      · intro habove
        obtain ⟨up', hup', hparent'⟩ := Relation.TransGen.tail'_iff.1 habove
        rw [hparent] at hparent'
        obtain rfl := Option.some.inj hparent'
        exact (Relation.reflTransGen_iff_eq_or_transGen.1 hup').imp_left Eq.symm

/-- The ancestors of a node are what stands above it. -/
theorem Built.mem_ancestors (h : t.Built) (hj : j < t.nodes.size) :
    i ∈ (⟨t, j⟩ : SyntaxNode).ancestors.map (·.id) ↔ t.Above i j := by
  rw [← h.mem_ancestorsFrom (Nat.le_of_lt hj)]
  simp [SyntaxNode.ancestors, SyntaxNode.inTree]

/-- The descendants of a node are the nodes behind it in its subtree. -/
theorem Built.descendants_eq (h : t.Built) (hp : t.Places parent id slot sub) :
    (⟨t, id⟩ : SyntaxNode).descendants =
      (List.range' (id + 1) (sub.size - 1)).map (SyntaxNode.mk t) := by
  have hle := hp.index_add_size_le
  rw [← h.size_nodes] at hle
  rw [SyntaxNode.descendants, allNodes, List.filter_map]
  congr 1
  -- Both lists ascend, so it is enough that they have the same members.
  apply List.Pairwise.eq_of_mem_iff (List.pairwise_lt_range.filter _) List.pairwise_lt_range'
  intro j
  rw [List.mem_filter, List.mem_range, List.mem_range'_1, Function.comp_apply]
  constructor
  · rintro ⟨hj, habove⟩
    rw [List.contains_iff_mem, h.mem_ancestors hj, h.above_iff hp] at habove
    omega
  · intro hj
    have hlt : j < t.nodes.size := by omega
    rw [List.contains_iff_mem, h.mem_ancestors hlt, h.above_iff hp]
    exact ⟨hlt, by omega⟩

/-- A node's location holds the locations of all nodes below it. -/
theorem Built.contains_of_above (h : t.Built) (habove : t.Above i j) :
    (t.node i).location.contains (t.node j).location = true := by
  induction habove with
  | single hparent => exact (h.inside_of_parent hparent).2
  | tail _ hparent ih => exact Location.contains_trans ih (h.inside_of_parent hparent).2

end SyntaxTree

end Polyglot
