import Mathlib.Order.MinMax
import Polyglot.Proofs.Syntax.Links

/-!
# The order of the nodes in the source

In a parse the spans of siblings lie in order, and those of children inside that of their parent. A
well-formed map keeps the order, but it can lead many spans to one place, and every node is then
moved into its parent. The order survives: a node starts where its parent does or later, and all
that is below one sibling starts where the next one does or earlier (`start_le_of_mem_layout`). So
the nodes, taken by index, start in order (`starts_in_order`).
-/

set_option autoImplicit false

namespace Polyglot

namespace ParseTree

mutual

/-- The spans are upright, and those of siblings lie in order and do not overlap. -/
def Ordered : ParseTree → Prop
  | .node label children => label.span.start ≤ label.span.stop ∧ OrderedAll children

/-- The trees are ordered, and lie in order. -/
def OrderedAll : List ParseTree → Prop
  | [] => True
  | t :: rest =>
    Ordered t ∧ (∀ u ∈ rest, t.label.span.stop ≤ u.label.span.start) ∧ OrderedAll rest

end

theorem OrderedAll.of_mem {l : List ParseTree} (h : OrderedAll l) {t : ParseTree} (ht : t ∈ l) :
    t.Ordered := by
  induction l with
  | nil => cases ht
  | cons u l ih =>
    rcases List.mem_cons.1 ht with rfl | ht
    · exact h.1
    · exact ih h.2.2 ht

theorem OrderedAll.pairwise {l : List ParseTree} (h : OrderedAll l) :
    l.Pairwise fun t u => t.label.span.stop ≤ u.label.span.start := by
  induction l with
  | nil => exact .nil
  | cons t l ih => exact List.pairwise_cons.2 ⟨h.2.1, ih h.2.2⟩

theorem Ordered.upright {t : ParseTree} (h : t.Ordered) :
    t.label.span.start ≤ t.label.span.stop := by
  cases t
  exact h.1

mutual

/-- In an ordered parse that nests, every node lies upright inside the root. -/
theorem inside_of_mem_preorder : ∀ {t : ParseTree}, t.Nested → t.Ordered →
    ∀ n ∈ t.preorder, n.span.start ≤ n.span.stop ∧ n.span.Inside t.label.span
  | .node label children, hn, ho, n, hmem => by
    rcases List.mem_cons.1 hmem with rfl | hmem
    · exact ⟨ho.1, Nat.le_refl _, Nat.le_refl _⟩
    · exact inside_of_mem_preorderAll hn ho.2 n hmem

theorem inside_of_mem_preorderAll : ∀ {l : List ParseTree} {span : Span}, NestedIn span l →
    OrderedAll l → ∀ n ∈ preorderAll l, n.span.start ≤ n.span.stop ∧ n.span.Inside span
  | t :: rest, span, hn, ho, n, hmem => by
    rcases List.mem_append.1 hmem with hmem | hmem
    · obtain ⟨hup, hin⟩ := inside_of_mem_preorder hn.2.1 ho.1 n hmem
      exact ⟨hup, Nat.le_trans hn.1.1 hin.1, Nat.le_trans hin.2 hn.1.2⟩
    · exact inside_of_mem_preorderAll hn.2.2 ho.2.2 n hmem

end

section Layout

variable {map : OffsetMap} {source : Source}

mutual

/-- A subtree's nodes are moved into what is above it. -/
theorem contains_of_mem_layout : ∀ {t : ParseTree} {up : Nat} {outer : Location} {next slot : Nat},
    source.Locates outer → ∀ n ∈ layout map source (some (up, outer)) next slot t,
      outer.contains n.location = true
  | .node label children, up, outer, next, slot, h, n, hmem => by
    have hroot := contains_locateIn h map label.span
    rcases List.mem_cons.1 hmem with rfl | hmem
    · exact hroot
    · exact Location.contains_trans hroot
        (contains_of_mem_layoutAll (locates_locateIn _ _ _ _) n hmem)

theorem contains_of_mem_layoutAll : ∀ {l : List ParseTree} {up : Nat} {outer : Location}
    {next slot : Nat}, source.Locates outer →
      ∀ n ∈ layoutAll map source (up, outer) next slot l, outer.contains n.location = true
  | t :: rest, up, outer, next, slot, h, n, hmem => by
    rcases List.mem_append.1 hmem with hmem | hmem
    · exact contains_of_mem_layout h n hmem
    · exact contains_of_mem_layoutAll h n hmem

end

mutual

/-- What bounds where a parent starts and, as far as it lies in the parent, where each node below is
mapped, bounds where the nodes below start: a node is moved on to the start of its parent or back to
its end. -/
theorem start_le_of_mem_layout : ∀ {t : ParseTree} {up : Nat} {outer : Location} {next slot : Nat}
    {bound : Nat}, source.Locates outer → outer.start ≤ bound →
      (∀ n ∈ t.preorder, min (map.mapRange n.span.start n.span.stop).start outer.stop ≤ bound) →
      ∀ n ∈ layout map source (some (up, outer)) next slot t, n.location.start ≤ bound
  | .node label children, up, outer, next, slot, bound, h, hstart, himages, n, hmem => by
    have hroot : (locateIn map source (some outer) label.span).start ≤ bound := by
      have := himages label List.mem_cons_self
      simp only [locateIn, Source.start_locate]
      omega
    rcases List.mem_cons.1 hmem with rfl | hmem
    · exact hroot
    · -- The nodes below are moved into the root, which ends no later than what is above it.
      have hstop := (Location.contains_iff.1 (contains_locateIn h map label.span)).2
      refine start_le_of_mem_layoutAll (locates_locateIn _ _ _ _) hroot ?_ n hmem
      intro m hm
      have := himages m (List.mem_cons_of_mem _ hm)
      omega

theorem start_le_of_mem_layoutAll : ∀ {l : List ParseTree} {up : Nat} {outer : Location}
    {next slot : Nat} {bound : Nat}, source.Locates outer → outer.start ≤ bound →
      (∀ n ∈ preorderAll l, min (map.mapRange n.span.start n.span.stop).start outer.stop ≤ bound) →
      ∀ n ∈ layoutAll map source (up, outer) next slot l, n.location.start ≤ bound
  | t :: rest, up, outer, next, slot, bound, h, hstart, himages, n, hmem => by
    rcases List.mem_append.1 hmem with hmem | hmem
    · exact start_le_of_mem_layout h hstart
        (fun m hm => himages m (List.mem_append_left _ hm)) n hmem
    · exact start_le_of_mem_layoutAll h hstart
        (fun m hm => himages m (List.mem_append_right _ hm)) n hmem

end

/-- Every node of adjacent subtrees starts no earlier than the root of one of them. -/
theorem exists_root_of_mem_layoutAll {l : List ParseTree} {up : Nat} {outer : Location}
    {next slot : Nat} {n : Node} (hmem : n ∈ layoutAll map source (up, outer) next slot l) :
    ∃ t ∈ l, (locateIn map source (some outer) t.label.span).start ≤ n.location.start := by
  induction l generalizing next slot with
  | nil => cases hmem
  | cons t l ih =>
    rcases List.mem_append.1 hmem with hmem | hmem
    · refine ⟨t, List.mem_cons_self, ?_⟩
      cases t with
      | node label children =>
        rcases List.mem_cons.1 hmem with rfl | hmem
        · exact Nat.le_refl _
        · exact (Location.contains_iff.1
            (contains_of_mem_layoutAll (locates_locateIn _ _ _ _) n hmem)).1
    · obtain ⟨u, hu, hle⟩ := ih hmem
      exact ⟨u, List.mem_cons_of_mem t hu, hle⟩

/-- A node further on is moved further on, into one parent. -/
theorem locateIn_mono (hm : map.WellFormed) {a b : Span} (hstart : a.start ≤ b.start)
    (hstop : a.stop ≤ b.stop) (outer : Location) :
    (locateIn map source (some outer) a).start ≤ (locateIn map source (some outer) b).start ∧
      (locateIn map source (some outer) a).stop ≤ (locateIn map source (some outer) b).stop := by
  obtain ⟨hstart, hstop⟩ := hm.mapRange_mono hstart hstop
  have hstart := max_le_max (le_refl outer.start) (min_le_min hstart (le_refl outer.stop))
  have hstop := max_le_max hstart (min_le_min hstop (le_refl outer.stop))
  have hstart := min_le_min hstart (le_refl source.lines.length)
  have hstop := min_le_min hstop (le_refl source.lines.length)
  exact ⟨hstart, max_le_max hstart hstop⟩

/-- All that is below one of two siblings starts where the other does or earlier. -/
theorem start_le_of_siblings (hm : map.WellFormed) {t u : ParseTree} {up : Nat} {outer : Location}
    {next slot : Nat} (h : source.Locates outer) (hn : t.Nested) (ho : t.Ordered) (hu : u.Ordered)
    (htu : t.label.span.stop ≤ u.label.span.start) {n : Node}
    (hmem : n ∈ layout map source (some (up, outer)) next slot t) :
    n.location.start ≤ (locateIn map source (some outer) u.label.span).start := by
  have hin := (Location.contains_iff.1 (contains_locateIn h map u.label.span)).1
  refine start_le_of_mem_layout h hin ?_ n hmem
  intro m hmem
  obtain ⟨hup, -, hstop⟩ := inside_of_mem_preorder hn ho m hmem
  have hu := hu.upright
  have hmono : (map.mapRange m.span.start m.span.stop).start ≤
      (map.mapRange u.label.span.start u.label.span.stop).start :=
    (hm.mapRange_mono (by omega) (by omega)).1
  have hlen := h.bounded
  simp only [locateIn, Source.start_locate]
  omega

mutual

/-- The nodes of a subtree start in order. -/
theorem pairwise_layout (hm : map.WellFormed) : ∀ {t : ParseTree}
    {parent : Option (Nat × Location)} {next slot : Nat}, t.Nested → t.Ordered →
    (layout map source parent next slot t).Pairwise fun m n => m.location.start ≤ n.location.start
  | .node label children, parent, next, slot, hn, ho => by
    have hroot := locates_locateIn map source (parent.map (·.2)) label.span
    apply List.pairwise_cons.2
    constructor
    · intro n hmem
      exact (Location.contains_iff.1 (contains_of_mem_layoutAll hroot n hmem)).1
    · exact pairwise_layoutAll hm hroot hn ho.2

theorem pairwise_layoutAll (hm : map.WellFormed) : ∀ {l : List ParseTree} {span : Span} {up : Nat}
    {outer : Location} {next slot : Nat}, source.Locates outer → NestedIn span l → OrderedAll l →
    (layoutAll map source (up, outer) next slot l).Pairwise
      fun m n => m.location.start ≤ n.location.start
  | [], _, _, _, _, _, _, _, _ => .nil
  | t :: rest, span, up, outer, next, slot, h, hn, ho => by
    apply List.pairwise_append.2
    refine ⟨pairwise_layout hm hn.2.1 ho.1, pairwise_layoutAll hm h hn.2.2 ho.2.2, ?_⟩
    intro m hmem n hmem'
    obtain ⟨u, hu, hle⟩ := exists_root_of_mem_layoutAll hmem'
    exact Nat.le_trans
      (start_le_of_siblings hm h hn.2.1 ho.1 (ho.2.2.of_mem hu) (ho.2.1 u hu) hmem) hle

end

end Layout

section Places

variable {map : OffsetMap} {source : Source} {root t : ParseTree}
  {parent : Option (Nat × Location)} {index slot : Nat}

theorem Placed.ordered (ho : root.Ordered) (h : Placed map source root parent index slot t) :
    t.Ordered := by
  induction h with
  | root => exact ho
  | child above ih => exact ih.2.of_mem (by simp)

end Places

end ParseTree

namespace SyntaxTree

variable {t : SyntaxTree}

/-- Two children of a node stand for subtrees below one parent, and in an ordered parse the left one
ends where the other starts or earlier. -/
theorem Built.siblings_ordered (h : t.Built) (ho : t.parse.root.Ordered) (up : Nat) :
    (t.node up).children.Pairwise fun a b => ∃ u v slot slot',
      t.Places (some (up, (t.node up).location)) a slot u ∧
      t.Places (some (up, (t.node up).location)) b slot' v ∧
      u.Ordered ∧ v.Ordered ∧ u.label.span.stop ≤ v.label.span.start := by
  apply List.pairwise_iff_getElem.2
  intro k k' hk hk' hlt
  by_cases hup : up < t.nodes.size
  · obtain ⟨parent, slot, ⟨label, children⟩, hp⟩ := h.exists_place hup
    obtain ⟨u, hu, -, hpu⟩ := h.place_of_child hp (List.getElem?_eq_getElem hk)
    obtain ⟨v, hv, -, hpv⟩ := h.place_of_child hp (List.getElem?_eq_getElem hk')
    have hall := (hp.ordered ho).2
    refine ⟨u, v, k, k', hpu, hpv, hall.of_mem (List.mem_of_getElem? hu),
      hall.of_mem (List.mem_of_getElem? hv), ?_⟩
    obtain ⟨hku, rfl⟩ := List.getElem?_eq_some_iff.1 hu
    obtain ⟨hkv, rfl⟩ := List.getElem?_eq_some_iff.1 hv
    exact List.pairwise_iff_getElem.1 hall.pairwise k k' hku hkv hlt
  · rw [node_of_le (Nat.le_of_not_lt hup)] at hk
    cases hk

/-- Of two children of a node the one further right starts and ends where the other does or later. -/
theorem Built.siblings_in_order (h : t.Built) (hm : t.map.WellFormed)
    (ho : t.parse.root.Ordered) (up : Nat) :
    (t.node up).children.Pairwise fun a b =>
      (t.node a).location.start ≤ (t.node b).location.start ∧
        (t.node a).location.stop ≤ (t.node b).location.stop := by
  apply (h.siblings_ordered ho up).imp
  rintro a b ⟨u, v, slot, slot', hpu, hpv, hu, hv, horder⟩
  have hu := hu.upright
  have hv := hv.upright
  rw [h.location_of_place hpu, h.location_of_place hpv]
  exact ParseTree.locateIn_mono hm (by omega) (by omega) _

/-- In an ordered parse each child of a node ends where the next ones start or earlier. -/
theorem Built.siblings_parsed (h : t.Built) (ho : t.parse.root.Ordered) (up : Nat) :
    (t.node up).children.Pairwise fun a b => (t.node a).parsed.stop ≤ (t.node b).parsed.start := by
  apply (h.siblings_ordered ho up).imp
  rintro a b ⟨u, v, slot, slot', hpu, hpv, -, -, horder⟩
  rwa [h.parsed_of_place hpu, h.parsed_of_place hpv]

/-- The nodes start in the order of their indices. -/
theorem Built.start_mono (h : t.Built) (hm : t.map.WellFormed) (hn : t.parse.root.Nested)
    (ho : t.parse.root.Ordered) {i j : Nat} (hij : i ≤ j) (hj : j < t.nodes.size) :
    (t.node i).location.start ≤ (t.node j).location.start := by
  have hpairwise : t.nodes.toList.Pairwise fun m n => m.location.start ≤ n.location.start := by
    rw [h.nodes]
    exact ParseTree.pairwise_layout hm hn ho
  have hget : ∀ k, (hk : k < t.nodes.toList.length) → t.node k = t.nodes.toList[k] := by
    intro k hk
    rw [Array.length_toList] at hk
    simp [node, hk]
  rcases Nat.eq_or_lt_of_le hij with rfl | hlt
  · exact Nat.le_refl _
  · rw [hget i (by rw [Array.length_toList]; omega), hget j (by rwa [Array.length_toList])]
    exact List.pairwise_iff_getElem.1 hpairwise i j _ _ hlt

/-- In a tree with a well-formed map and a parse whose nodes lie inside their parents and whose
siblings lie in order, the nodes start in the order of their indices, and siblings start and end in
their order, wherever the map leads them. -/
theorem starts_in_order (h : t.Built) (hm : t.map.WellFormed) (hn : t.parse.root.Nested)
    (ho : t.parse.root.Ordered) :
    (∀ i j, i ≤ j → j < t.nodes.size →
      (t.node i).location.start ≤ (t.node j).location.start) ∧
    ∀ up, (t.node up).children.Pairwise fun a b =>
      (t.node a).location.start ≤ (t.node b).location.start ∧
        (t.node a).location.stop ≤ (t.node b).location.stop :=
  ⟨fun _ _ hij hj => h.start_mono hm hn ho hij hj, h.siblings_in_order hm ho⟩

/-- A node of the crowded page. -/
def crowdedNode (id start stop : Nat) : ParseNode :=
  ⟨id, "item", ⟨true, false, start == stop, false, false⟩, none, ⟨start, stop⟩⟩

/-- A page that was cut at its third letter and then replaced by one word. Two words with a letter
each stand in the replacement, and an empty node at the cut. -/
def crowded : SyntaxTree :=
  build .html 0 (Bytes.ofString "abWXYZ")
    ⟨.node (crowdedNode 0 0 6)
      [.node (crowdedNode 1 0 2) [.node (crowdedNode 2 2 2) []],
        .node (crowdedNode 3 2 4) [.node (crowdedNode 4 3 4) []],
        .node (crowdedNode 5 4 6) [.node (crowdedNode 6 4 5) []]], ""⟩
    ⟨[Segment.copied ⟨0, 2⟩ 0, Segment.replaced ⟨2, 2⟩ ⟨2, 5⟩, Segment.replaced ⟨2, 6⟩ ⟨5, 8⟩]⟩
    (Source.ofBytes (Bytes.ofString "ab---efg"))

/-- All of the replacement is one place: the letters of the first word in it and the second word
start alike. -/
theorem starts_in_order_crowded :
    (crowded.Built ∧ crowded.map.WellFormed ∧ crowded.parse.root.Nested ∧
      crowded.parse.root.Ordered) ∧
    (crowded.node 4).location.start ≤ (crowded.node 5).location.start ∧
    (crowded.node 4).location.span = ⟨5, 8⟩ ∧ (crowded.node 5).location.span = ⟨5, 8⟩ ∧
    (crowded.node 0).children = [1, 3, 5] ∧ (crowded.node 2).location.span = ⟨2, 2⟩ ∧
    ([1, 3, 5] : List Nat).Pairwise fun a b =>
      (crowded.node a).location.start ≤ (crowded.node b).location.start ∧
        (crowded.node a).location.stop ≤ (crowded.node b).location.stop := by
  have hbuilt : crowded.Built := rfl
  have hm : crowded.map.WellFormed := by decide
  have hn : crowded.parse.root.Nested := by
    simp [crowded, build, crowdedNode, ParseTree.Nested, ParseTree.NestedIn, ParseTree.label,
      Span.Inside]
  have ho : crowded.parse.root.Ordered := by
    simp [crowded, build, crowdedNode, ParseTree.Ordered, ParseTree.OrderedAll, ParseTree.label]
  obtain ⟨hstarts, hsiblings⟩ := starts_in_order hbuilt hm hn ho
  have hchildren : (crowded.node 0).children = [1, 3, 5] := by decide +kernel
  refine ⟨⟨hbuilt, hm, hn, ho⟩, hstarts 4 5 (by decide) (by decide +kernel), by decide +kernel,
    by decide +kernel, hchildren, by decide +kernel, ?_⟩
  have h := hsiblings 0
  rwa [hchildren] at h

end SyntaxTree

end Polyglot
