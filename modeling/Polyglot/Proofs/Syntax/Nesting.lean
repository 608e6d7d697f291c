import Polyglot.Proofs.Syntax.Descent

/-!
# Spans in pre-order

Where the spans of a parse nest and siblings lie in order, the place of two nodes in the walk tells how
their spans lie: a node that comes later is below the earlier one, and so inside it, or all of it is
behind (`Built.above_or_before`).
-/

set_option autoImplicit false

namespace Polyglot

namespace ParseTree

theorem le_of_mem_childIndices {next i : Nat} {l : List ParseTree} (h : i ∈ childIndices next l) :
    next ≤ i := by
  induction l generalizing next with
  | nil => cases h
  | cons t l ih =>
    rcases List.mem_cons.1 h with rfl | h
    · exact Nat.le_refl _
    · exact Nat.le_trans (Nat.le_add_right _ _) (ih h)

theorem pairwise_childIndices (next : Nat) (l : List ParseTree) :
    (childIndices next l).Pairwise (· < ·) := by
  induction l generalizing next with
  | nil => exact .nil
  | cons t l ih =>
    refine List.pairwise_cons.2 ⟨fun i hi => ?_, ih _⟩
    have hle := le_of_mem_childIndices hi
    have hpos := t.size_pos
    omega

end ParseTree

namespace SyntaxTree

variable {t : SyntaxTree} {i j up : Nat}

/-- The children of a node stand in the order of their indices. -/
theorem Built.children_ascend (h : t.Built) (up : Nat) :
    (t.node up).children.Pairwise (· < ·) := by
  by_cases hup : up < t.nodes.size
  · obtain ⟨parent, slot, sub, hp⟩ := h.exists_place hup
    rw [h.children_of_place hp]
    exact ParseTree.pairwise_childIndices _ _
  · rw [node_of_le (Nat.le_of_not_lt hup)]
    exact .nil

/-- Of two children of one node, the one with the smaller index ends where the other starts or
earlier. -/
theorem Built.parsed_of_siblings (h : t.Built) (ho : t.parse.root.Ordered)
    (hi : (t.node i).parent = some up) (hj : (t.node j).parent = some up) (hij : i < j) :
    (t.node i).parsed.stop ≤ (t.node j).parsed.start := by
  obtain ⟨hki, hgeti⟩ := List.getElem?_eq_some_iff.1 (h.child_iff.2 ⟨hi, rfl⟩)
  obtain ⟨hkj, hgetj⟩ := List.getElem?_eq_some_iff.1 (h.child_iff.2 ⟨hj, rfl⟩)
  have hascend := List.pairwise_iff_getElem.1 (h.children_ascend up)
  rcases Nat.lt_trichotomy (t.node i).slot (t.node j).slot with hlt | heq | hgt
  · have hapart := List.pairwise_iff_getElem.1 (h.siblings_parsed ho up) _ _ hki hkj hlt
    rwa [hgeti, hgetj] at hapart
  · have hsame : (t.node up).children[(t.node i).slot]? = some j := by
      rw [heq]
      exact h.child_iff.2 ⟨hj, rfl⟩
    rw [h.child_iff.2 ⟨hi, rfl⟩] at hsame
    cases hsame
    exact absurd hij (Nat.lt_irrefl i)
  · have hback := hascend _ _ hkj hki hgt
    rw [hgeti, hgetj] at hback
    exact absurd hij (Nat.lt_asymm hback)

/-- The span of a node lies inside that of its parent. -/
theorem Built.parsed_inside_of_parent (h : t.Built) (hn : t.parse.root.Nested)
    (hparent : (t.node j).parent = some up) : (t.node j).parsed.Inside (t.node up).parsed := by
  have hup := Nat.lt_trans (h.inside_of_parent hparent).1 (lt_of_parent hparent)
  obtain ⟨parent, slot, ⟨label, children⟩, hp⟩ := h.exists_place hup
  obtain ⟨u, hu, -, hpu⟩ := h.place_of_child hp (h.child_iff.2 ⟨hparent, rfl⟩)
  rw [h.parsed_of_place hp, h.parsed_of_place hpu]
  exact (ParseTree.NestedIn.of_mem (hp.nested hn) (List.mem_of_getElem? hu)).1

theorem Built.parsed_inside_of_atOrAbove (h : t.Built) (hn : t.parse.root.Nested)
    (hij : t.AtOrAbove i j) : (t.node j).parsed.Inside (t.node i).parsed := by
  induction hij with
  | refl => exact ⟨Nat.le_refl _, Nat.le_refl _⟩
  | tail _ hparent ih =>
    have hin := h.parsed_inside_of_parent hn hparent
    exact ⟨Nat.le_trans ih.1 hin.1, Nat.le_trans hin.2 ih.2⟩

/-- A node that comes later in pre-order is below the earlier one, or starts where it ends or later. -/
theorem Built.above_or_before (h : t.Built) (hn : t.parse.root.Nested) (ho : t.parse.root.Ordered)
    (hij : i < j) (hj : j < t.nodes.size) :
    t.Above i j ∨ (t.node i).parsed.stop ≤ (t.node j).parsed.start := by
  induction j using Nat.strongRecOn with
  | ind j ih =>
    cases hparent : (t.node j).parent with
    | none =>
      rw [h.parent_eq_none_iff hj] at hparent
      omega
    | some up =>
      have hup := (h.inside_of_parent hparent).1
      rcases Nat.lt_trichotomy i up with hlt | rfl | hgt
      · rcases ih up hup hlt (Nat.lt_trans hup hj) with habove | hbefore
        · exact .inl (habove.tail hparent)
        · exact .inr (Nat.le_trans hbefore (h.parsed_inside_of_parent hn hparent).1)
      · exact .inl (.single hparent)
      · -- Between a node and its child are the subtrees of the children in front of that one.
        obtain ⟨parent, slot, sub, hp⟩ := h.exists_place (Nat.lt_trans hup hj)
        have hinside := (h.above_iff hp).1 (.single hparent)
        have habove := (h.above_iff hp).2 ⟨hgt, Nat.lt_trans hij hinside.2⟩
        obtain ⟨c, hc, hci⟩ := Relation.TransGen.head'_iff.1 habove
        have hcj := Nat.lt_of_le_of_lt (h.le_of_atOrAbove hci) hij
        have hstop := (h.parsed_inside_of_atOrAbove hn hci).2
        exact .inr (Nat.le_trans hstop (h.parsed_of_siblings ho hc hparent hcj))

end SyntaxTree

end Polyglot
