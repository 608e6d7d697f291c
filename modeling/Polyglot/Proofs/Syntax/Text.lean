import Polyglot.Proofs.Syntax.Locations
import Polyglot.Query.Basic

/-!
# The text of a node

There are two ways to the text of a node. The predicates of a query map the node's span and take
the source bytes there; the text that is shown is sliced at the node's location, which is that
image moved into the location of the parent. Where the spans of a parse nest, only an image
without text is ever moved, so both ways give the same bytes (`Built.sourceBytes_parsed`). An
image can hold text although the span is empty: a replacement comes from all of its target.
-/

set_option autoImplicit false

namespace Polyglot

/-- Slicing at a location is slicing at the ends it was made from. -/
theorem Source.slice_locate {source : Source} (h : source.lines.length = source.bytes.length)
    (a b : Nat) :
    source.slice (source.locate a b).start (source.locate a b).stop = source.slice a b := by
  simp only [slice, start_locate, stop_locate, h]
  congr 1 <;> omega

namespace ParseTree

variable {map : OffsetMap} {source : Source} {root t : ParseTree}
  {parent : Option (Nat × Location)} {index slot : Nat}

/-- Where the spans nest, a node with some text is exactly where the map leads it. -/
theorem Placed.locateIn_eq_of_image (hm : map.WellFormed) (hn : root.Nested)
    (h : Placed map source root parent index slot t)
    (hlt : (map.mapRange t.label.span.start t.label.span.stop).start <
      (map.mapRange t.label.span.start t.label.span.stop).stop) :
    locateIn map source (parent.map (·.2)) t.label.span =
      locateIn map source none t.label.span := by
  refine h.locateIn_eq_of
    (P := fun span => (map.mapRange span.start span.stop).start <
      (map.mapRange span.start span.stop).stop) ?_ hn hlt
  intro outer _ n _ hin hlt
  have himage := hm.mapRange_inside_of_image hin.1 hin.2 hlt
  refine ⟨?_, himage⟩
  have h₁ := himage.1
  have h₂ := himage.2
  omega

end ParseTree

namespace SyntaxTree

variable {t : SyntaxTree} {id : Nat}

/-- The source bytes behind a node's span are those at its location. -/
theorem Built.sourceBytes_parsed (h : t.Built)
    (hlines : t.source.lines.length = t.source.bytes.length) (hm : t.map.WellFormed)
    (hn : t.parse.root.Nested) (hid : id < t.nodes.size) :
    t.sourceBytes (t.node id).parsed =
      t.source.slice (t.node id).location.start (t.node id).location.stop := by
  obtain ⟨parent, slot, sub, hp⟩ := h.exists_place hid
  rw [h.parsed_of_place hp, h.location_of_place hp]
  unfold sourceBytes
  simp only
  by_cases hlt : (t.map.mapRange sub.label.span.start sub.label.span.stop).start <
      (t.map.mapRange sub.label.span.start sub.label.span.stop).stop
  · rw [hp.locateIn_eq_of_image hm hn hlt]
    exact (Source.slice_locate hlines _ _).symm
  · -- The node may have been moved, but there is no text at either place.
    have hle := Nat.le_of_not_lt hlt
    rw [Source.slice_of_stop_le hle,
      Source.slice_of_stop_le (Nat.le_of_eq (ParseTree.locateIn_of_empty hle _).symm)]

/-- The nodes of a raw match are nodes of the tree. -/
theorem exists_index_of_mem_nodesOf {m : RawMatch} {capture : Nat} {n : Node}
    (h : n ∈ Query.nodesOf t m capture) : ∃ id < t.nodes.size, t.node id = n := by
  obtain ⟨id, hid, rfl⟩ := List.mem_map.1 h
  obtain ⟨c, -, hc⟩ := List.mem_filterMap.1 hid
  obtain ⟨hlt, -⟩ := Array.findIdx?_eq_some_iff_getElem.1 hc
  exact ⟨id, hlt, rfl⟩

/-- The text of a node as predicates see it is its text as it is shown: in a tree with a
well-formed map into its source and a parse whose spans nest, the source bytes behind a node's span
are the source at the node's location. So a query admits a match just when its predicates hold of
the texts of the captured nodes. -/
theorem sourceBytes_eq_slice_location (h : t.Built) {buffer : Bytes}
    (hsource : t.source = Source.ofBytes buffer) (hm : t.map.WellFormed)
    (hn : t.parse.root.Nested) :
    (∀ n : SyntaxNode, n.tree = t → n.id < t.nodes.size →
      t.sourceBytes n.data.parsed = t.source.slice n.location.start n.location.stop ∧
        n.text = Utf8.decodeLossy (t.sourceBytes n.data.parsed)) ∧
    ∀ (q : Query) (m : RawMatch),
      q.admits t m = (q.predicates.getD m.pattern []).all fun p =>
        p.holds fun c => (Query.nodesOf t m c).map fun n =>
          t.source.slice n.location.start n.location.stop := by
  have hlines : t.source.lines.length = t.source.bytes.length := by
    rw [hsource]
    rfl
  constructor
  · rintro ⟨_, id⟩ rfl hid
    have hbytes := h.sourceBytes_parsed hlines hm hn hid
    exact ⟨hbytes, congrArg Utf8.decodeLossy hbytes.symm⟩
  · intro q m
    have htexts : ∀ c, (Query.nodesOf t m c).map (fun n => t.sourceBytes n.parsed) =
        (Query.nodesOf t m c).map fun n =>
          t.source.slice n.location.start n.location.stop := by
      intro c
      apply List.map_congr_left
      intro n hmem
      obtain ⟨id, hid, rfl⟩ := exists_index_of_mem_nodesOf hmem
      exact h.sourceBytes_parsed hlines hm hn hid
    simp only [Query.admits, htexts]

/-- A node of the patched page. -/
def patchedNode (id start stop : Nat) : ParseNode :=
  ⟨id, "item", ⟨true, false, start == stop, false, false⟩, none, ⟨start, stop⟩⟩

/-- A page of two words around a comment. Of the comment the markers were cut out and the two
letters between them replaced; each part has an empty node at its end or in it. -/
def patched : SyntaxTree :=
  build .html 0 (Bytes.ofString "abXYef")
    ⟨.node (patchedNode 0 0 6)
      [.node (patchedNode 1 0 2) [.node (patchedNode 2 2 2) []],
        .node (patchedNode 3 2 4) [.node (patchedNode 4 3 3) []],
        .node (patchedNode 5 4 6) [.node (patchedNode 6 4 4) []]], ""⟩
    ⟨[Segment.copied ⟨0, 2⟩ 0, Segment.replaced ⟨2, 2⟩ ⟨2, 6⟩, Segment.replaced ⟨2, 4⟩ ⟨6, 8⟩,
      Segment.replaced ⟨4, 4⟩ ⟨8, 11⟩, Segment.copied ⟨4, 6⟩ 11]⟩
    (Source.ofBytes (Bytes.ofString "ab<!--cd-->ef"))

/-- The empty node inside the replacement has text, and the one behind the deletion was moved. -/
theorem sourceBytes_patched :
    (patched.Built ∧ patched.source = Source.ofBytes (Bytes.ofString "ab<!--cd-->ef") ∧
      patched.map.WellFormed ∧ patched.parse.root.Nested ∧ 4 < patched.nodes.size ∧
      6 < patched.nodes.size) ∧
    (patched.sourceBytes (patched.node 4).parsed =
        patched.source.slice (patched.node 4).location.start (patched.node 4).location.stop ∧
      (patched.node 4).parsed = ⟨3, 3⟩ ∧
      patched.sourceBytes (patched.node 4).parsed = Bytes.ofString "cd") ∧
    patched.sourceBytes (patched.node 6).parsed =
        patched.source.slice (patched.node 6).location.start (patched.node 6).location.stop ∧
      patched.map.mapRange 4 4 = ⟨8, 8⟩ ∧ (patched.node 6).location.span = ⟨11, 11⟩ := by
  have hbuilt : patched.Built := rfl
  have hm : patched.map.WellFormed := by decide
  have hn : patched.parse.root.Nested := by
    simp [patched, build, patchedNode, ParseTree.Nested, ParseTree.NestedIn, ParseTree.label,
      Span.Inside]
  have hfour : 4 < patched.nodes.size := by decide +kernel
  have hsix : 6 < patched.nodes.size := by decide +kernel
  have htexts := (sourceBytes_eq_slice_location hbuilt rfl hm hn).1
  refine ⟨⟨hbuilt, rfl, hm, hn, hfour, hsix⟩, ⟨(htexts ⟨patched, 4⟩ rfl hfour).1, ?_, ?_⟩,
    (htexts ⟨patched, 6⟩ rfl hsix).1, ?_, ?_⟩
  · decide +kernel
  · decide +kernel
  · decide +kernel
  · decide +kernel

end SyntaxTree

end Polyglot
