import Polyglot.Chain.Extractors

/-!
# What the extractors pick

Every range that one of the extractors at hand picks is the span of a node of the tree it looks at.
So it lies in the parsed bytes of the tree as soon as the spans of the nodes do, whatever the bytes
are that the extractor is given to look at.
-/

set_option autoImplicit false

namespace Polyglot

/-- The range is the span of a node of the tree. -/
def SyntaxTree.HasSpan (t : SyntaxTree) (range : Span) : Prop :=
  ∃ id, range = (t.node id).parsed

/-- Every range that the extractor picks is the span of a node. -/
def Extractor.PicksNodes (x : Extractor) : Prop :=
  ∀ (t : SyntaxTree) (bytes : Bytes), ∀ range ∈ x.ranges t bytes, t.HasSpan range

namespace SyntaxNode

variable {n c : SyntaxNode}

theorem hasSpan (n : SyntaxNode) : n.tree.HasSpan n.data.parsed :=
  ⟨n.id, rfl⟩

theorem tree_of_mem_children (h : c ∈ n.children) : c.tree = n.tree := by
  obtain ⟨id, -, rfl⟩ := List.mem_map.1 h
  rfl

theorem tree_of_mem_descendants {kinds : List String} (h : c ∈ n.descendantsOfType kinds) :
    c.tree = n.tree := by
  obtain ⟨id, -, rfl⟩ := List.mem_map.1 h
  rfl

theorem tree_of_mem_walk (h : c ∈ n.walk) : c.tree = n.tree := by
  obtain ⟨id, -, rfl⟩ := List.mem_map.1 h
  rfl

end SyntaxNode

namespace Extractor

variable {n c : SyntaxNode} {range : Span}

theorem tree_of_childOfKind? {kind : String} (h : childOfKind? n kind = some c) :
    c.tree = n.tree :=
  SyntaxNode.tree_of_mem_children (List.mem_of_find?_eq_some h)

theorem hasSpan_of_rawText? (h : rawText? n = some range) : n.tree.HasSpan range := by
  obtain ⟨c, hc, rfl⟩ := Option.map_eq_some_iff.1 h
  rw [← tree_of_childOfKind? hc]
  exact c.hasSpan

theorem hasSpan_of_attributeValue? (h : attributeValue? n = some range) :
    n.tree.HasSpan range := by
  obtain ⟨c, hc, h⟩ := List.exists_of_findSome?_eq_some h
  rw [← SyntaxNode.tree_of_mem_children hc]
  split at h
  · obtain rfl := Option.some.inj h
    exact c.hasSpan
  · split at h
    · obtain ⟨v, hv, rfl⟩ := Option.map_eq_some_iff.1 h
      rw [← tree_of_childOfKind? hv]
      exact v.hasSpan
    · cases h

theorem picksNodes_htmlScript : htmlScript.PicksNodes := by
  intro t bytes range h
  obtain ⟨e, he, hrange⟩ := List.mem_filterMap.1 h
  have htree : e.tree = t := SyntaxNode.tree_of_mem_descendants (List.mem_filter.1 he).1
  rw [← htree]
  exact hasSpan_of_rawText? hrange

theorem picksNodes_htmlStyle : htmlStyle.PicksNodes := by
  intro t bytes range h
  obtain ⟨e, he, hrange⟩ := List.mem_filterMap.1 h
  have htree : e.tree = t := SyntaxNode.tree_of_mem_descendants he
  rw [← htree]
  exact hasSpan_of_rawText? hrange

theorem picksNodes_htmlAttribute (name : String) : (htmlAttribute name).PicksNodes := by
  intro t bytes range h
  obtain ⟨a, ha, hrange⟩ := List.mem_filterMap.1 h
  have htree : a.tree = t := SyntaxNode.tree_of_mem_descendants (List.mem_filter.1 ha).1
  rw [← htree]
  exact hasSpan_of_attributeValue? hrange

/-- What is appended outside of what was found was found before or is offered. -/
theorem mem_of_mem_appendOutside {found : List Span} {span : Span}
    (h : range ∈ appendOutside found span) : range ∈ found ∨ range = span := by
  unfold appendOutside at h
  split at h
  · split at h
    · exact .inl h
    · rcases List.mem_append.1 h with h | h
      · exact .inl h
      · exact .inr (List.mem_singleton.1 h)
  · exact .inr (List.mem_singleton.1 h)

theorem mem_of_mem_foldl_appendOutside {spans found : List Span}
    (h : range ∈ spans.foldl appendOutside found) : range ∈ found ∨ range ∈ spans := by
  induction spans generalizing found with
  | nil => exact .inl h
  | cons span spans ih =>
    rcases ih h with h | h
    · rcases mem_of_mem_appendOutside h with h | rfl
      · exact .inl h
      · exact .inr List.mem_cons_self
    · exact .inr (List.mem_cons_of_mem _ h)

theorem picksNodes_ofKinds (kinds within : List String) : (ofKinds kinds within).PicksNodes := by
  intro t bytes range h
  rcases mem_of_mem_foldl_appendOutside h with h | h
  · cases h
  · obtain ⟨n, hn, rfl⟩ := List.mem_map.1 h
    have htree : n.tree = t := SyntaxNode.tree_of_mem_walk (List.mem_filter.1 hn).1
    rw [← htree]
    exact n.hasSpan

end Extractor

end Polyglot
