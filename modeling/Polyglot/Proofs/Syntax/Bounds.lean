import Polyglot.Proofs.LineIndex.Adjunction
import Polyglot.Proofs.Syntax.Walks

/-!
# Searches between two points

A search between two points goes by the offsets of the points, the lower one first. The adjunction
of points and offsets makes the upper bound exact: a node starts no later than the upper point just
when its first offset is no later than the point's offset. The lower bound is exact for points of
the buffer. A point past the end of its line, or below the last row, stands for the offset that it
is moved back to, and a node that ends there is found although it ends before the point
(`descendantsOfTypeBetween_eq`).
-/

set_option autoImplicit false

namespace Polyglot

namespace LineIndex

variable {bs : Bytes} {o : Nat}

/-- The offset of a point is no later than an offset just when the point does not come after the
offset's, or the offset is the very one that the point is moved to. -/
theorem offsetOf_le_iff (ho : o ≤ bs.length) (p : Point) :
    (ofBytes bs).offsetOf p ≤ o ↔
      p ≤ (ofBytes bs).pointOf o ∨ o = (ofBytes bs).offsetOf p := by
  constructor
  · intro hle
    rcases Nat.eq_or_lt_of_le hle with heq | hlt
    · exact .inr heq.symm
    · refine .inl (le_of_not_ge fun hafter => ?_)
      rw [pointOf_le_iff ho] at hafter
      omega
  · rintro (hle | rfl)
    · rw [← offsetOf_pointOf ho]
      exact monotone_offsetOf bs hle
    · exact Nat.le_refl _

end LineIndex

namespace SyntaxNode

variable {n d : SyntaxNode}

theorem exists_index_of_mem_descendants (h : d ∈ n.descendants) :
    ∃ id < n.tree.nodes.size, d = ⟨n.tree, id⟩ := by
  obtain ⟨id, hid, rfl⟩ := List.mem_map.1 (List.mem_filter.1 h).1
  exact ⟨id, List.mem_range.1 hid, rfl⟩

/-- A search between two points is a search between their offsets, the lower point first. -/
theorem descendantsOfTypeBetween_eq_collect (n : SyntaxNode) (kinds : List String) (p q : Point) :
    n.descendantsOfTypeBetween kinds p q = n.collect kinds fun d =>
      d.meets (n.tree.source.offsetOf (min p q)) (n.tree.source.offsetOf (max p q)) := by
  unfold descendantsOfTypeBetween
  by_cases hpq : p ≤ q
  · rw [if_pos (Point.notAfter_iff_le.2 hpq), min_eq_left hpq, max_eq_right hpq]
  · have hqp := le_of_not_ge hpq
    rw [if_neg (fun h => hpq (Point.notAfter_iff_le.1 h)), min_eq_right hqp, max_eq_left hqp]

end SyntaxNode

namespace SyntaxTree

variable {t : SyntaxTree} {id : Nat} {buffer : Bytes}

/-- A node meets the offsets of two points when it starts no later than the upper one, and ends no
earlier than the lower one or where that is moved to. -/
theorem Built.meets_offsetOf_iff (h : t.Built) (hsource : t.source = Source.ofBytes buffer)
    (hid : id < t.nodes.size) (lo hi : Point) :
    (t.node id).meets (t.source.offsetOf lo) (t.source.offsetOf hi) = true ↔
      (lo ≤ (t.node id).location.stopPoint ∨
        (t.node id).location.stop = t.source.offsetOf lo) ∧
        (t.node id).location.startPoint ≤ hi := by
  obtain ⟨hup, hbounded, hstart, hstop⟩ := h.locates hid
  rw [hsource] at hbounded hstart hstop
  rw [hsource, hstart, hstop]
  simp only [Node.meets, Bool.and_eq_true, decide_eq_true_eq]
  exact and_congr (LineIndex.offsetOf_le_iff hbounded lo)
    (LineIndex.pointOf_le_iff (Nat.le_trans hup hbounded) hi).symm

end SyntaxTree

namespace SyntaxNode

/-- A search for descendants of some kinds between two points, given in either order, finds the
strict descendants of these kinds that start no later than the upper point and end no earlier than
the lower one, and beside these only such as end before the lower point at the very offset that it
is moved back to. So if the lower point is that of its offset, it finds just the former. The order
is that of a walk. -/
theorem descendantsOfTypeBetween_eq (n : SyntaxNode) (h : n.tree.Built) {buffer : Bytes}
    (hsource : n.tree.source = Source.ofBytes buffer) (hid : n.id < n.tree.nodes.size)
    (kinds : List String) (p q : Point) :
    n.walk = n :: n.descendants ∧
    n.descendantsOfTypeBetween kinds p q = (n.descendants.filter fun d =>
      kinds.contains d.kind && decide (d.location.startPoint ≤ max p q) &&
        (decide (min p q ≤ d.location.stopPoint) ||
          d.location.stop == n.tree.source.offsetOf (min p q))) ∧
    (n.tree.source.pointOf (n.tree.source.offsetOf (min p q)) = min p q →
      n.descendantsOfTypeBetween kinds p q = n.descendants.filter fun d =>
        kinds.contains d.kind && decide (d.location.startPoint ≤ max p q) &&
          decide (min p q ≤ d.location.stopPoint)) := by
  have hfound : n.descendantsOfTypeBetween kinds p q = n.descendants.filter fun d =>
      kinds.contains d.kind && decide (d.location.startPoint ≤ max p q) &&
        (decide (min p q ≤ d.location.stopPoint) ||
          d.location.stop == n.tree.source.offsetOf (min p q)) := by
    rw [descendantsOfTypeBetween_eq_collect, h.collect_eq (h.prunes_meets _ _) hid kinds]
    apply List.filter_congr
    intro d hd
    obtain ⟨id, hlt, rfl⟩ := exists_index_of_mem_descendants hd
    rw [Bool.eq_iff_iff, Bool.and_eq_true]
    simp only [data, h.meets_offsetOf_iff hsource hlt, Bool.and_eq_true, Bool.or_eq_true,
      decide_eq_true_eq, beq_iff_eq]
    constructor
    · rintro ⟨⟨hlo, hhi⟩, hkind⟩
      exact ⟨⟨hkind, hhi⟩, hlo⟩
    · rintro ⟨⟨hkind, hhi⟩, hlo⟩
      exact ⟨⟨hlo, hhi⟩, hkind⟩
  refine ⟨h.walk_eq_cons hid, hfound, fun hexact => ?_⟩
  rw [hfound]
  apply List.filter_congr
  intro d hd
  obtain ⟨id, hlt, rfl⟩ := exists_index_of_mem_descendants hd
  congr 1
  rw [Bool.eq_iff_iff, Bool.or_eq_true, decide_eq_true_eq, beq_iff_eq, or_iff_left_iff_imp]
  intro hstop
  -- A node that ends at the offset of the lower point ends at the point.
  have hpoint := (h.locates hlt).stopPoint
  rw [show (n.tree.node id).location.stop = _ from hstop, hexact] at hpoint
  exact le_of_eq hpoint.symm

/-! ## Points past the end of a line -/

/-- A page of two lines with a word in each. -/
def twoLines : SyntaxTree :=
  .build .html 0 (Bytes.ofString "ab\ncd")
    ⟨.node (SyntaxTree.measuredNode 0 "page" 0 5)
      [.node (SyntaxTree.measuredNode 1 "word" 0 2) [],
        .node (SyntaxTree.measuredNode 2 "word" 3 5) []], ""⟩
    (OffsetMap.identity 5) (Source.ofBytes (Bytes.ofString "ab\ncd"))

/-- The words between the last column of the first line and a point below the page: both of them,
whichever of the points comes first. -/
theorem descendantsOfTypeBetween_twoLines :
    (twoLines.Built ∧ twoLines.source = Source.ofBytes (Bytes.ofString "ab\ncd") ∧
      0 < twoLines.nodes.size ∧
      twoLines.source.pointOf (twoLines.source.offsetOf (min ⟨7, 1⟩ ⟨0, 2⟩)) =
        min ⟨7, 1⟩ ⟨0, 2⟩) ∧
    twoLines.root.descendantsOfTypeBetween ["word"] ⟨7, 1⟩ ⟨0, 2⟩ =
      (twoLines.root.descendants.filter fun d =>
        ["word"].contains d.kind && decide (d.location.startPoint ≤ max ⟨7, 1⟩ ⟨0, 2⟩) &&
          decide (min ⟨7, 1⟩ ⟨0, 2⟩ ≤ d.location.stopPoint)) ∧
    (twoLines.root.descendantsOfTypeBetween ["word"] ⟨7, 1⟩ ⟨0, 2⟩).map (·.id) = [1, 2] := by
  have hbuilt : twoLines.Built := rfl
  have hroot : 0 < twoLines.nodes.size := by decide +kernel
  have hexact : twoLines.source.pointOf (twoLines.source.offsetOf (min ⟨7, 1⟩ ⟨0, 2⟩)) =
      min ⟨7, 1⟩ ⟨0, 2⟩ := by decide +kernel
  obtain ⟨-, -, hfound⟩ :=
    descendantsOfTypeBetween_eq twoLines.root hbuilt rfl hroot ["word"] ⟨7, 1⟩ ⟨0, 2⟩
  exact ⟨⟨hbuilt, rfl, hroot, hexact⟩, hfound hexact, by decide +kernel⟩

/-- Of the words from the tenth column of the first line on, which has but two columns, the first is
found, for it ends where the line does; but it ends before the point. -/
theorem descendantsOfTypeBetween_past_line :
    twoLines.Built ∧
    twoLines.root.descendantsOfTypeBetween ["word"] ⟨0, 10⟩ ⟨0, 20⟩ ≠
      (twoLines.root.descendants.filter fun d =>
        ["word"].contains d.kind && decide (d.location.startPoint ≤ max ⟨0, 10⟩ ⟨0, 20⟩) &&
          decide (min ⟨0, 10⟩ ⟨0, 20⟩ ≤ d.location.stopPoint)) ∧
    (twoLines.root.descendantsOfTypeBetween ["word"] ⟨0, 10⟩ ⟨0, 20⟩).map (·.id) = [1] ∧
    (twoLines.node 1).location.stopPoint = ⟨0, 2⟩ := by
  refine ⟨rfl, fun heq => ?_, by decide +kernel, by decide +kernel⟩
  have hids := congrArg (List.map (·.id)) heq
  exact absurd hids (by decide +kernel)

end SyntaxNode

end Polyglot
