import Polyglot.Proofs.Syntax.Arena

/-!
# Where the nodes of a tree are

A tree that was built from a parse has each node where the map leads its span, moved into the
location of its parent. So locations nest as the nodes do, whatever the spans are, and all of
them lie in the origin of the tree. Where the spans of the parse nest as well, nothing is moved:
every node is exactly where the map leads it (`Placed.locateIn_eq`).
-/

set_option autoImplicit false

namespace Polyglot

theorem Location.contains_iff {l inner : Location} :
    l.contains inner = true ↔ l.start ≤ inner.start ∧ inner.stop ≤ l.stop := by
  simp [Location.contains]

theorem Location.contains_trans {l m n : Location} (hlm : l.contains m = true)
    (hmn : m.contains n = true) : l.contains n = true := by
  rw [Location.contains_iff] at hlm hmn ⊢
  omega

namespace Source

/-- The location is one of the source: its ends are in order and in the buffer, and its points
are theirs. -/
structure Locates (source : Source) (l : Location) : Prop where
  upright : l.start ≤ l.stop
  bounded : l.stop ≤ source.lines.length
  startPoint : l.startPoint = source.pointOf l.start
  stopPoint : l.stopPoint = source.pointOf l.stop

variable {source : Source} {a b c d : Nat}

@[simp] theorem start_locate (source : Source) (a b : Nat) :
    (source.locate a b).start = min a source.lines.length := rfl

@[simp] theorem stop_locate (source : Source) (a b : Nat) :
    (source.locate a b).stop = max (min a source.lines.length) (min b source.lines.length) := rfl

theorem locates_locate (source : Source) (a b : Nat) : source.Locates (source.locate a b) := by
  constructor
  · exact Nat.le_max_left _ _
  · simp only [stop_locate]
    omega
  · rfl
  · rfl

theorem span_locate_of_le (hab : a ≤ b) (hb : b ≤ source.lines.length) :
    (source.locate a b).span = ⟨a, b⟩ := by
  simp only [locate, LineIndex.locate]
  rw [Nat.min_eq_left hb, Nat.min_eq_left (Nat.le_trans hab hb), Nat.max_eq_right hab]

theorem contains_locate (hac : a ≤ c) (hcd : c ≤ d) (hdb : d ≤ b) :
    (source.locate a b).contains (source.locate c d) = true := by
  rw [Location.contains_iff]
  simp only [start_locate, stop_locate]
  omega

theorem slice_of_le (hab : a ≤ b) (hb : b ≤ source.bytes.length) :
    source.slice a b = source.bytes.slice a b := by
  simp only [slice]
  rw [Nat.min_eq_left hb, Nat.min_eq_left (Nat.le_trans hab hb), Nat.max_eq_right hab]

theorem slice_of_stop_le (hba : b ≤ a) : source.slice a b = [] := by
  apply List.drop_eq_nil_of_le
  simp only [List.length_take]
  omega

/-- Moving the ends of a range into a location that holds it moves them nowhere. -/
theorem locate_of_between (hac : a ≤ c) (hcd : c ≤ d) (hdb : d ≤ b) :
    let start := max (source.locate a b).start (min c (source.locate a b).stop)
    source.locate start (max start (min d (source.locate a b).stop)) = source.locate c d := by
  have hends : ∀ {i j i' j' : Nat}, min i source.lines.length = min i' source.lines.length →
      min j source.lines.length = min j' source.lines.length →
      source.locate i j = source.locate i' j' := by
    intro i j i' j' hi hj
    simp only [locate, LineIndex.locate, hi, hj]
  apply hends
  · simp only [start_locate, stop_locate]
    omega
  · simp only [start_locate, stop_locate]
    omega

end Source

namespace ParseTree

mutual

/-- The children of every node lie inside it, as those in a parse do. -/
def Nested : ParseTree → Prop
  | .node label children => NestedIn label.span children

/-- The trees lie inside a span, and in each of them the children of every node inside it. -/
def NestedIn (span : Span) : List ParseTree → Prop
  | [] => True
  | t :: rest => t.label.span.Inside span ∧ Nested t ∧ NestedIn span rest

end

theorem NestedIn.of_mem {span : Span} {l : List ParseTree} (h : NestedIn span l) {t : ParseTree}
    (ht : t ∈ l) : t.label.span.Inside span ∧ t.Nested := by
  induction l with
  | nil => cases ht
  | cons u l ih =>
    obtain ⟨hspan, hu, hrest⟩ := h
    rcases List.mem_cons.1 ht with rfl | ht
    · exact ⟨hspan, hu⟩
    · exact ih hrest ht

section Located

variable {map : OffsetMap} {source : Source} {root t : ParseTree}
  {parent : Option (Nat × Location)} {index slot : Nat}

theorem locates_locateIn (map : OffsetMap) (source : Source) (outer : Option Location)
    (span : Span) : source.Locates (locateIn map source outer span) := by
  cases outer with
  | none => exact source.locates_locate _ _
  | some outer => exact source.locates_locate _ _

/-- A node is moved into the location of its parent. -/
theorem contains_locateIn {outer : Location} (h : source.Locates outer) (map : OffsetMap)
    (span : Span) : outer.contains (locateIn map source (some outer) span) = true := by
  have hup := h.upright
  have hlen := h.bounded
  rw [Location.contains_iff]
  simp only [locateIn, Source.start_locate, Source.stop_locate]
  omega

/-- Where no parent is, a node lies in the target span of the map. -/
theorem contains_locateIn_none (hm : map.WellFormed) (source : Source) (span : Span) :
    (source.locate map.targetSpan.start map.targetSpan.stop).contains
      (locateIn map source none span) = true := by
  have hin := hm.mapRange_inside span.start span.stop
  exact Source.contains_locate hin.1 (map.mapRange_upright _ _) hin.2

/-- A node whose image lies inside that of its parent is moved nowhere. -/
theorem locateIn_of_inside {span outer : Span}
    (h : (map.mapRange span.start span.stop).Inside (map.mapRange outer.start outer.stop)) :
    locateIn map source (some (locateIn map source none outer)) span =
      locateIn map source none span :=
  Source.locate_of_between h.1 (map.mapRange_upright _ _) h.2

/-- Of an empty image there is no text, wherever it is moved. -/
theorem locateIn_of_empty {span : Span}
    (h : (map.mapRange span.start span.stop).stop ≤ (map.mapRange span.start span.stop).start)
    (outer : Option Location) :
    (locateIn map source outer span).start = (locateIn map source outer span).stop := by
  cases outer with
  | none =>
    simp only [locateIn, Source.start_locate, Source.stop_locate]
    omega
  | some outer =>
    simp only [locateIn, Source.start_locate, Source.stop_locate]
    omega

/-- Every node lies in the target span of the map. -/
theorem Placed.contains_targetSpan (hm : map.WellFormed)
    (h : Placed map source root parent index slot t) :
    (source.locate map.targetSpan.start map.targetSpan.stop).contains
      (locateIn map source (parent.map (·.2)) t.label.span) = true := by
  induction h with
  | root => exact contains_locateIn_none hm source _
  | @child parent index slot label before behind t above ih =>
    apply Location.contains_trans ih
    exact contains_locateIn (locates_locateIn _ _ _ _) map t.label.span

theorem Placed.nested (hn : root.Nested) (h : Placed map source root parent index slot t) :
    t.Nested := by
  induction h with
  | root => exact hn
  | child above ih => exact (NestedIn.of_mem ih (by simp)).2

/-- Where the spans nest, what passes from a node to its parent and keeps the image of the node
inside that of the parent keeps the node from being moved. -/
theorem Placed.locateIn_eq_of {P : Span → Prop}
    (hP : ∀ outer ∈ root.preorder, ∀ n ∈ root.preorder, n.span.Inside outer.span → P n.span →
      P outer.span ∧ (map.mapRange n.span.start n.span.stop).Inside
        (map.mapRange outer.span.start outer.span.stop))
    (hn : root.Nested) (h : Placed map source root parent index slot t) (ht : P t.label.span) :
    locateIn map source (parent.map (·.2)) t.label.span =
      locateIn map source none t.label.span := by
  induction h with
  | root => rfl
  | @child parent index slot label before behind t above ih =>
    have hin : t.label.span.Inside label.span := (NestedIn.of_mem (above.nested hn) (by simp)).1
    have hlabel : label ∈ root.preorder := above.mem_preorder (label_mem_preorder _)
    have htlabel : t.label ∈ root.preorder := above.child.mem_preorder (label_mem_preorder _)
    obtain ⟨houter, himage⟩ := hP label hlabel t.label htlabel hin ht
    have ih := ih houter
    simp only [Option.map_some] at ih ⊢
    rw [show locateIn map source (parent.map (·.2)) label.span =
      locateIn map source none label.span from ih]
    exact locateIn_of_inside himage

/-- Where the spans nest, a node that takes up bytes is exactly where the map leads it. -/
theorem Placed.locateIn_eq (hm : map.WellFormed) (hn : root.Nested)
    (h : Placed map source root parent index slot t)
    (hlt : t.label.span.start < t.label.span.stop) :
    locateIn map source (parent.map (·.2)) t.label.span =
      locateIn map source none t.label.span := by
  refine h.locateIn_eq_of (P := fun span => span.start < span.stop) ?_ hn hlt
  intro outer _ n _ hin hlt
  refine ⟨?_, hm.mapRange_inside_mapRange hin.1 hlt hin.2⟩
  have h₁ := hin.1
  have h₂ := hin.2
  omega

end Located

end ParseTree

namespace SyntaxTree

variable {t : SyntaxTree} {id : Nat}

/-- The tree is what building one of its parts gives. -/
def Built (t : SyntaxTree) : Prop :=
  t = build t.language t.occurrence t.parsed t.parse t.map t.source

/-- The places of a tree's nodes. -/
abbrev Places (t : SyntaxTree) : Option (Nat × Location) → Nat → Nat → ParseTree → Prop :=
  ParseTree.Placed t.map t.source t.parse.root

theorem built_build (language : Language) (occurrence : Nat) (parsed : Bytes) (parse : Parse)
    (map : OffsetMap) (source : Source) :
    (build language occurrence parsed parse map source).Built := rfl

theorem Built.nodes (h : t.Built) :
    t.nodes = (ParseTree.layout t.map t.source none 0 0 t.parse.root).toArray := by
  rw [h]
  exact t.parse.root.arena_eq_layout t.map t.source

theorem Built.origin (h : t.Built) :
    t.origin = t.source.locate t.map.targetSpan.start t.map.targetSpan.stop := by
  rw [h]
  rfl

/-- Every node of the tree stands for a subtree of the parse. -/
theorem Built.exists_place (h : t.Built) (hid : id < t.nodes.size) :
    ∃ parent slot sub, t.Places parent id slot sub := by
  rw [h.nodes, List.size_toArray, ParseTree.length_layout] at hid
  exact ParseTree.exists_placed hid

/-- The node that stands for a subtree. -/
theorem Built.node_of_place (h : t.Built) {parent : Option (Nat × Location)} {slot : Nat}
    {label : ParseNode} {children : List ParseTree}
    (hp : t.Places parent id slot (.node label children)) :
    t.node id = ⟨label.id, label.kind, label.flags, label.field, label.span,
      ParseTree.locateIn t.map t.source (parent.map (·.2)) label.span, parent.map (·.1),
      ParseTree.childIndices (id + 1) children, slot⟩ := by
  have hget := hp.getElem? (j := 0) (by simp only [ParseTree.size]; omega)
  rw [Nat.add_zero] at hget
  unfold node
  rw [Array.getD_eq_getD_getElem?, h.nodes, List.getElem?_toArray, hget]
  rfl

section Place

variable {parent : Option (Nat × Location)} {slot : Nat} {sub : ParseTree}

theorem Built.location_of_place (h : t.Built) (hp : t.Places parent id slot sub) :
    (t.node id).location =
      ParseTree.locateIn t.map t.source (parent.map (·.2)) sub.label.span := by
  cases sub with
  | node label children =>
    rw [h.node_of_place hp]
    rfl

theorem Built.parsed_of_place (h : t.Built) (hp : t.Places parent id slot sub) :
    (t.node id).parsed = sub.label.span := by
  cases sub with
  | node label children =>
    rw [h.node_of_place hp]
    rfl

theorem Built.parent_of_place (h : t.Built) (hp : t.Places parent id slot sub) :
    (t.node id).parent = parent.map (·.1) := by
  cases sub with
  | node label children => rw [h.node_of_place hp]

end Place

/-- A node is the root, or it stands inside the node above it. -/
theorem Built.eq_root_or_inside (h : t.Built) (hid : id < t.nodes.size) :
    (id = 0 ∧ (t.node id).parent = none) ∨
      ∃ up < id, (t.node id).parent = some up ∧
        (t.node up).location.contains (t.node id).location = true := by
  obtain ⟨parent, slot, sub, hp⟩ := h.exists_place hid
  rw [h.location_of_place hp, h.parent_of_place hp]
  rcases hp.eq_root_or_below with
    ⟨rfl, rfl⟩ | ⟨above, up, slot', label, before, behind, habove, rfl, rfl⟩
  · exact .inl ⟨rfl, rfl⟩
  · refine .inr ⟨up, by omega, rfl, ?_⟩
    rw [h.location_of_place habove]
    exact ParseTree.contains_locateIn (ParseTree.locates_locateIn _ _ _ _) _ _

/-- Every node stands inside the origin. -/
theorem Built.origin_contains (h : t.Built) (hm : t.map.WellFormed) (hid : id < t.nodes.size) :
    t.origin.contains (t.node id).location = true := by
  obtain ⟨parent, slot, sub, hp⟩ := h.exists_place hid
  rw [h.location_of_place hp, h.origin]
  exact hp.contains_targetSpan hm

/-- The locations of nodes are locations of the source. -/
theorem Built.locates (h : t.Built) (hid : id < t.nodes.size) :
    t.source.Locates (t.node id).location := by
  obtain ⟨parent, slot, sub, hp⟩ := h.exists_place hid
  rw [h.location_of_place hp]
  exact ParseTree.locates_locateIn _ _ _ _

theorem Built.locates_origin (h : t.Built) : t.source.Locates t.origin := by
  rw [h.origin]
  exact t.source.locates_locate _ _

end SyntaxTree

end Polyglot
