import Mathlib.Data.List.Pairwise
import Polyglot.Proofs.Syntax.Order
import Polyglot.Proofs.Syntax.Shifted
import Polyglot.Proofs.Syntax.Walks

/-!
# The way down to a range

The search for the smallest node around a range goes from a node to one of its children that cover
the range, and it ends where none does. `Descends` is the way it takes. Children stand behind their
parents, so every way ends (`Built.exists_descends`), and before the bound of the search is reached
(`Descends.descentFrom_eq`). All nodes between the first and the last are on it, and no others
(`Descends.mem_iff`).

The search never turns back. Where siblings share no byte it need not: of two children one byte can
be in one only, so the child that it goes on in stands above every node that covers a range with a
byte in it (`Descends.atOrAbove_last`). An empty range has no byte. There the search prefers children
that go on behind it, or are empty as well; so it may miss a node that starts there, but not by more
than that it ends in another that does (`Descends.start_last`).
-/

set_option autoImplicit false

namespace Polyglot

theorem Location.mem_span {l : Location} {p : Nat} : p ∈ l.span ↔ l.start ≤ p ∧ p < l.stop := Iff.rfl

namespace Node

variable {n : Node} {s e : Nat}

theorem covers_iff : n.covers s e = true ↔ n.location.start ≤ s ∧ e ≤ n.location.stop := by
  simp [covers]

theorem spans_iff : n.spans s e = true ↔
    n.covers s e = true ∧ (s < n.location.stop ∨ n.location.start = n.location.stop) := by
  simp [spans]

end Node

/-- Where all bytes were copied, a range behind another is mapped to behind it. -/
theorem OffsetMap.WellFormed.stop_le_start_of_linear {m : OffsetMap} (h : m.WellFormed)
    (hlin : m.isLinear = true) (hpos : 0 < m.parsedLength) {i j i' j' : Nat} (hj : j ≤ i')
    (hij : i' ≤ j') : (m.mapRange i j).stop ≤ (m.mapRange i' j').start := by
  rw [mapRange_of_pos hpos, mapRange_of_pos hpos]
  apply Nat.le_min.2
  refine ⟨?_, h.mapEnd_mono (Nat.le_trans hj hij)⟩
  by_cases hi : i' < m.parsedLength
  · obtain ⟨s, hs, his⟩ := h.exists_segment hi
    exact h.mapEnd_le_mapStart hs (List.all_eq_true.1 hlin s hs) his hj
  · rw [h.mapStart_of_le (Nat.le_of_not_lt hi)]
    exact (h.mapEnd_inside j).2

/-- Of two nodes whose images share no byte, one behind the other, none is moved onto a byte of the
other. -/
theorem ParseTree.not_overlaps_locateIn {map : OffsetMap} {source : Source} {a b : Span}
    (h : (map.mapRange a.start a.stop).stop ≤ (map.mapRange b.start b.stop).start)
    (outer : Location) : ¬ (locateIn map source (some outer) a).span.Overlaps
      (locateIn map source (some outer) b).span := by
  rintro ⟨p, hpa, hpb⟩
  rw [Location.mem_span] at hpa hpb
  simp only [locateIn, Source.start_locate, Source.stop_locate] at hpa hpb
  omega

namespace SyntaxTree

variable {t : SyntaxTree} {i j k r d up s e p : Nat} {path : List Nat}

/-! ## At or above a node -/

/-- The second node is the first, or the first is among its strict ancestors. -/
def AtOrAbove (t : SyntaxTree) : Nat → Nat → Prop :=
  Relation.ReflTransGen fun up id => (t.node id).parent = some up

theorem atOrAbove_iff : t.AtOrAbove i j ↔ j = i ∨ t.Above i j :=
  Relation.reflTransGen_iff_eq_or_transGen

/-- Below a node is what is at or below one of its children. -/
theorem AtOrAbove.cases_child (h : t.AtOrAbove i j) :
    i = j ∨ ∃ c, (t.node c).parent = some i ∧ t.AtOrAbove c j :=
  Relation.ReflTransGen.cases_head h

/-- Of two nodes at or above a third one is at or above the other: a node has but one parent. -/
theorem AtOrAbove.total (hi : t.AtOrAbove i r) (hj : t.AtOrAbove j r) :
    t.AtOrAbove i j ∨ t.AtOrAbove j i := by
  have hunique : Relator.RightUnique
      (Function.swap fun up id => (t.node id).parent = some up) :=
    fun _ _ _ hup hup' => Option.some.inj (hup.symm.trans hup')
  have htotal := Relation.ReflTransGen.total_of_right_unique hunique
    (Relation.reflTransGen_swap.2 hi) (Relation.reflTransGen_swap.2 hj)
  exact (htotal.imp Relation.reflTransGen_swap.1 Relation.reflTransGen_swap.1).symm

theorem Built.le_of_atOrAbove (h : t.Built) (hij : t.AtOrAbove i j) : i ≤ j := by
  induction hij with
  | refl => exact Nat.le_refl _
  | tail _ hparent ih => exact Nat.le_trans ih (Nat.le_of_lt (h.inside_of_parent hparent).1)

theorem AtOrAbove.lt_size (hij : t.AtOrAbove i j) (hi : i < t.nodes.size) : j < t.nodes.size := by
  rcases Relation.ReflTransGen.cases_tail hij with rfl | ⟨_, _, hparent⟩
  · exact hi
  · exact lt_of_parent hparent

theorem Built.contains_of_atOrAbove (h : t.Built) (hij : t.AtOrAbove i j) :
    (t.node i).location.contains (t.node j).location = true := by
  rcases atOrAbove_iff.1 hij with rfl | habove
  · exact Location.contains_iff.2 ⟨Nat.le_refl _, Nat.le_refl _⟩
  · exact h.contains_of_above habove

/-- What a node covers is covered by all that is above it. -/
theorem Built.covers_of_atOrAbove (h : t.Built) (hij : t.AtOrAbove i j)
    (hcovers : (t.node j).covers s e = true) : (t.node i).covers s e = true := by
  have hcontains := Location.contains_iff.1 (h.contains_of_atOrAbove hij)
  rw [Node.covers_iff] at hcovers ⊢
  omega

/-- Only one child of a node is at or above another node. -/
theorem Built.child_unique (h : t.Built) (hj : (t.node j).parent = some i)
    (hk : (t.node k).parent = some i) (hjr : t.AtOrAbove j r) (hkr : t.AtOrAbove k r) : j = k := by
  -- Were one child above the other, so it would be above their parent.
  have hnot : ∀ {c d : Nat}, (t.node c).parent = some i → (t.node d).parent = some i →
      t.AtOrAbove c d → c = d := by
    intro c d hc hd hcd
    rcases Relation.ReflTransGen.cases_tail hcd with rfl | ⟨up, hup, hparent⟩
    · rfl
    · rw [hd] at hparent
      obtain rfl := Option.some.inj hparent
      have := h.le_of_atOrAbove hup
      have := (h.inside_of_parent hc).1
      omega
  rcases hjr.total hkr with hjk | hkj
  · exact hnot hj hk hjk
  · exact (hnot hk hj hkj).symm

/-- A walk from a node meets what is at or below it. -/
theorem Built.mem_walk (h : t.Built) (hi : i < t.nodes.size) (d : SyntaxNode) :
    d ∈ (⟨t, i⟩ : SyntaxNode).walk ↔ ∃ j, d = ⟨t, j⟩ ∧ t.AtOrAbove i j := by
  obtain ⟨parent, slot, sub, hp⟩ := h.exists_place hi
  have hpos := sub.size_pos
  rw [h.walk_eq hp, List.mem_map]
  have hindex : ∀ j, j ∈ List.range' i sub.size ↔ t.AtOrAbove i j := by
    intro j
    rw [List.mem_range'_1, atOrAbove_iff, h.above_iff hp]
    omega
  constructor
  · rintro ⟨j, hj, rfl⟩
    exact ⟨j, rfl, (hindex j).1 hj⟩
  · rintro ⟨j, rfl, hj⟩
    exact ⟨j, (hindex j).2 hj, rfl⟩

/-! ## One step down -/

theorem Built.mem_children (h : t.Built) (c : SyntaxNode) :
    c ∈ (⟨t, i⟩ : SyntaxNode).children ↔ ∃ j, c = ⟨t, j⟩ ∧ (t.node j).parent = some i := by
  simp only [SyntaxNode.children, SyntaxNode.inTree, SyntaxNode.data, List.mem_map]
  constructor
  · rintro ⟨j, hj, rfl⟩
    obtain ⟨slot, hslot⟩ := List.mem_iff_getElem?.1 hj
    exact ⟨j, rfl, (h.child_iff.1 hslot).1⟩
  · rintro ⟨j, rfl, hparent⟩
    exact ⟨j, List.mem_of_getElem? (h.child_iff.2 ⟨hparent, rfl⟩), rfl⟩

/-- The search ends where no child covers the range. -/
theorem toward?_eq_none_iff (n : SyntaxNode) :
    n.toward? s e = none ↔ ∀ c ∈ n.children, c.data.covers s e = false := by
  simp only [SyntaxNode.toward?, Option.or_eq_none_iff, List.find?_eq_none, Bool.not_eq_true]
  refine ⟨And.right, fun hnone => ⟨fun c hc => ?_, hnone⟩⟩
  simp [Node.spans, hnone c hc]

/-- A child in which the search may go on: it covers the range, and spans it if any child does. -/
structure Toward (t : SyntaxTree) (s e i k : Nat) : Prop where
  parent : (t.node k).parent = some i
  covers : (t.node k).covers s e = true
  prefers : ∀ j, (t.node j).parent = some i → (t.node j).spans s e = true →
    (t.node k).spans s e = true

theorem Built.exists_toward (h : t.Built) {c : SyntaxNode}
    (hc : (⟨t, i⟩ : SyntaxNode).toward? s e = some c) : ∃ k, c = ⟨t, k⟩ ∧ t.Toward s e i k := by
  rcases Option.or_eq_some_iff.1 hc with hspans | ⟨hnone, hcovers⟩
  · obtain ⟨k, rfl, hparent⟩ := (h.mem_children c).1 (List.mem_of_find?_eq_some hspans)
    have hspan := List.find?_some hspans
    exact ⟨k, rfl, hparent, (Node.spans_iff.1 hspan).1, fun _ _ _ => hspan⟩
  · obtain ⟨k, rfl, hparent⟩ := (h.mem_children c).1 (List.mem_of_find?_eq_some hcovers)
    have hcover := List.find?_some hcovers
    refine ⟨k, rfl, hparent, hcover, fun j hj hspan => ?_⟩
    exact absurd hspan (List.find?_eq_none.1 hnone _ ((h.mem_children _).2 ⟨j, rfl, hj⟩))

theorem Built.toward (h : t.Built) (hk : (⟨t, i⟩ : SyntaxNode).toward? s e = some ⟨t, k⟩) :
    t.Toward s e i k := by
  obtain ⟨_, ⟨⟩, htoward⟩ := h.exists_toward hk
  exact htoward

/-- Where the search ends nothing further down covers the range. -/
theorem Built.eq_of_toward?_eq_none (h : t.Built)
    (hnone : (⟨t, i⟩ : SyntaxNode).toward? s e = none) (hid : t.AtOrAbove i d)
    (hcovers : (t.node d).covers s e = true) : i = d := by
  rcases hid.cases_child with heq | ⟨c, hc, hcd⟩
  · exact heq
  · have hmissed := (toward?_eq_none_iff _).1 hnone _ ((h.mem_children _).2 ⟨c, rfl, hc⟩)
    have hcover := h.covers_of_atOrAbove hcd hcovers
    rw [show (t.node c).covers s e = false from hmissed] at hcover
    cases hcover

/-! ## The way down -/

/-- From the first node on the search takes the nodes of the list, the first one included, and it
ends in the last node. -/
inductive Descends (t : SyntaxTree) (s e : Nat) : Nat → List Nat → Nat → Prop
  | done {i : Nat} (stuck : (⟨t, i⟩ : SyntaxNode).toward? s e = none) : Descends t s e i [i] i
  | down {i k r : Nat} {path : List Nat}
      (next : (⟨t, i⟩ : SyntaxNode).toward? s e = some ⟨t, k⟩)
      (rest : Descends t s e k path r) : Descends t s e i (i :: path) r

/-- From every node there is a way down. -/
theorem Built.exists_descends (h : t.Built) (s e i : Nat) :
    ∃ path r, t.Descends s e i path r := by
  -- What is left of the tree behind the node gets less with each step.
  generalize hleft : t.nodes.size - i = left
  induction left using Nat.strongRecOn generalizing i with
  | ind left ih =>
    cases hnext : (⟨t, i⟩ : SyntaxNode).toward? s e with
    | none => exact ⟨[i], i, .done hnext⟩
    | some c =>
      obtain ⟨k, rfl, htoward⟩ := h.exists_toward hnext
      have hlt := (h.inside_of_parent htoward.parent).1
      have hk := lt_of_parent htoward.parent
      obtain ⟨path, r, hrest⟩ := ih (t.nodes.size - k) (by omega) k rfl
      exact ⟨i :: path, r, .down hnext hrest⟩

namespace Descends

/-- The search takes the way down, if its bound is at least the number of nodes behind the first. -/
theorem descentFrom_eq (hd : t.Descends s e i path r) (h : t.Built) {fuel : Nat}
    (hfuel : t.nodes.size ≤ i + fuel) :
    ⟨t, i⟩ :: SyntaxNode.descentFrom s e fuel ⟨t, i⟩ = path.map (SyntaxNode.mk t) := by
  induction hd generalizing fuel with
  | done stuck =>
    cases fuel with
    | zero => rfl
    | succ fuel => simp [SyntaxNode.descentFrom, stuck]
  | @down i k r path next rest ih =>
    have hparent := (h.toward next).parent
    have hlt := (h.inside_of_parent hparent).1
    have hk := lt_of_parent hparent
    obtain ⟨fuel, rfl⟩ : ∃ less, fuel = less + 1 := ⟨fuel - 1, by omega⟩
    have hrest := ih (show t.nodes.size ≤ k + fuel by omega)
    rw [List.map_cons, ← hrest, SyntaxNode.descentFrom, next]

theorem getLast?_eq (hd : t.Descends s e i path r) : path.getLast? = some r := by
  induction hd with
  | done => rfl
  | @down i k r path next rest ih =>
    rw [List.getLast?_cons, ih]
    rfl

/-- No child of the last node covers the range. -/
theorem stuck (hd : t.Descends s e i path r) : (⟨t, r⟩ : SyntaxNode).toward? s e = none := by
  induction hd with
  | done stuck => exact stuck
  | down _ _ ih => exact ih

variable (h : t.Built)
include h

theorem atOrAbove (hd : t.Descends s e i path r) : t.AtOrAbove i r := by
  induction hd with
  | done => exact .refl
  | down next _ ih =>
    exact .head (h.toward next).parent ih

/-- On the way are the nodes between the first and the last. -/
theorem mem_iff (hd : t.Descends s e i path r) :
    d ∈ path ↔ t.AtOrAbove i d ∧ t.AtOrAbove d r := by
  induction hd with
  | @done i stuck =>
    rw [List.mem_singleton]
    constructor
    · rintro rfl
      exact ⟨.refl, .refl⟩
    · rintro ⟨hid, hdi⟩
      exact Nat.le_antisymm (h.le_of_atOrAbove hdi) (h.le_of_atOrAbove hid)
  | @down i k r path next rest ih =>
    have hparent := (h.toward next).parent
    rw [List.mem_cons, ih]
    constructor
    · rintro (rfl | ⟨hkd, hdr⟩)
      · exact ⟨.refl, .head hparent (rest.atOrAbove h)⟩
      · exact ⟨.head hparent hkd, hdr⟩
    · rintro ⟨hid, hdr⟩
      rcases hid.cases_child with rfl | ⟨c, hc, hcd⟩
      · exact .inl rfl
      · obtain rfl := h.child_unique hc hparent (hcd.trans hdr) (rest.atOrAbove h)
        exact .inr ⟨hcd, hdr⟩

/-- The way goes on to higher indices. -/
theorem pairwise_lt (hd : t.Descends s e i path r) : path.Pairwise (· < ·) := by
  induction hd with
  | done => exact List.pairwise_singleton _ _
  | @down i k r path next rest ih =>
    refine List.pairwise_cons.2 ⟨fun d hmem => ?_, ih⟩
    have := h.le_of_atOrAbove ((rest.mem_iff h).1 hmem).1
    have := (h.inside_of_parent (h.toward next).parent).1
    omega

/-- All nodes on the way cover the range, if the first does. -/
theorem covers_last (hd : t.Descends s e i path r) (hcovers : (t.node i).covers s e = true) :
    (t.node r).covers s e = true := by
  induction hd with
  | done => exact hcovers
  | down next _ ih =>
    exact ih (h.toward next).covers

end Descends

/-! ## Siblings apart -/

/-- No two children of one node share a byte of the source. -/
def Apart (t : SyntaxTree) : Prop :=
  ∀ up, (t.node up).children.Pairwise fun i j =>
    ¬ (t.node i).location.span.Overlaps (t.node j).location.span

/-- A byte is in one child only. -/
theorem Built.eq_of_apart (h : t.Built) (ha : t.Apart) (hi : (t.node i).parent = some up)
    (hj : (t.node j).parent = some up) (hpi : p ∈ (t.node i).location.span)
    (hpj : p ∈ (t.node j).location.span) : i = j := by
  have : Std.Symm fun i j => ¬ (t.node i).location.span.Overlaps (t.node j).location.span :=
    ⟨fun _ _ hnot ⟨q, hq, hq'⟩ => hnot ⟨q, hq', hq⟩⟩
  by_contra hne
  have hi := List.mem_of_getElem? (h.child_iff.2 ⟨hi, rfl⟩)
  have hj := List.mem_of_getElem? (h.child_iff.2 ⟨hj, rfl⟩)
  exact (ha up).forall hi hj hne ⟨p, hpi, hpj⟩

namespace Descends

variable (h : t.Built)
include h

/-- Where siblings are apart and the range is not empty, all nodes that cover it are on the way. -/
theorem atOrAbove_last (hd : t.Descends s e i path r) (ha : t.Apart) (hse : s < e)
    (hid : t.AtOrAbove i d) (hcovers : (t.node d).covers s e = true) : t.AtOrAbove d r := by
  induction hd with
  | @done i stuck =>
    rw [h.eq_of_toward?_eq_none stuck hid hcovers]
    exact .refl
  | @down i k r path next rest ih =>
    have htoward := h.toward next
    rcases hid.cases_child with rfl | ⟨c, hc, hcd⟩
    · exact .head htoward.parent (rest.atOrAbove h)
    · have hcc := Node.covers_iff.1 (h.covers_of_atOrAbove hcd hcovers)
      have hkk := Node.covers_iff.1 htoward.covers
      -- The first byte of the range is in both children.
      obtain rfl := h.eq_of_apart ha hc htoward.parent
        (Location.mem_span.2 ⟨hcc.1, Nat.lt_of_lt_of_le hse hcc.2⟩)
        (Location.mem_span.2 ⟨hkk.1, Nat.lt_of_lt_of_le hse hkk.2⟩)
      exact ih hcd

/-- A way from a node that starts at an empty range ends in one that does. -/
theorem start_last_of_start (hd : t.Descends p p i path r)
    (hcovers : (t.node i).covers p p = true) (hstart : (t.node i).location.start = p) :
    (t.node r).location.start = p := by
  have hcontains := Location.contains_iff.1 (h.contains_of_atOrAbove (hd.atOrAbove h))
  have hlast := Node.covers_iff.1 (hd.covers_last h hcovers)
  omega

/-- Where siblings are apart and a node with a byte in it starts at an empty range, the way ends in
a node that starts there. -/
theorem start_last (hd : t.Descends p p i path r) (ha : t.Apart)
    (hcovers : (t.node i).covers p p = true) (hid : t.AtOrAbove i d)
    (hstart : (t.node d).location.start = p) (hstop : p < (t.node d).location.stop) :
    (t.node r).location.start = p := by
  induction hd with
  | @done i stuck =>
    rw [h.eq_of_toward?_eq_none stuck hid
      (Node.covers_iff.2 ⟨Nat.le_of_eq hstart, Nat.le_of_lt hstop⟩)]
    exact hstart
  | @down i k r path next rest ih =>
    have hdown := Descends.down next rest
    obtain ⟨hparent, hk, hprefers⟩ := h.toward next
    rcases hid.cases_child with rfl | ⟨c, hc, hcd⟩
    · exact hdown.start_last_of_start h hcovers hstart
    · have hcontains := Location.contains_iff.1 (h.contains_of_atOrAbove hcd)
      have hspans : (t.node c).spans p p = true :=
        Node.spans_iff.2 ⟨Node.covers_iff.2 (by omega), .inl (by omega)⟩
      obtain ⟨hkcovers, hbehind | hempty⟩ := Node.spans_iff.1 (hprefers c hc hspans)
      · -- Both children hold the byte behind the range.
        rw [Node.covers_iff] at hkcovers
        obtain rfl := h.eq_of_apart ha hc hparent
          (Location.mem_span.2 ⟨by omega, by omega⟩) (Location.mem_span.2 ⟨hkcovers.1, hbehind⟩)
        exact ih hk hcd
      · rw [Node.covers_iff] at hkcovers
        exact rest.start_last_of_start h hk (by omega)

end Descends

/-! ## Trees whose siblings are apart -/

/-- A map that shifts leaves siblings apart as the parse has them. -/
theorem Built.apart_of_shifts {base : Nat} (h : t.Built) (hm : t.map.Shifts base)
    (hbound : base + t.map.parsedLength ≤ t.source.lines.length)
    (hr : t.parse.root.Regular t.map.parsedLength) (ho : t.parse.root.Ordered) : t.Apart := by
  intro up
  apply (h.siblings_parsed ho up).imp_of_mem
  intro i j hi hj hle
  have hspan : ∀ {c : Nat}, c ∈ (t.node up).children →
      (t.node c).location.span = (t.node c).parsed.shift base := by
    intro c hc
    obtain ⟨slot, hslot⟩ := List.mem_iff_getElem?.1 hc
    exact h.span_location_of_shifts hm hbound hr (lt_of_parent (h.child_iff.1 hslot).1)
  rw [hspan hi, hspan hj, Span.overlaps_iff]
  simp only [Span.shift]
  omega

/-- A map of copied bytes leaves siblings apart as the parse has them. -/
theorem Built.apart_of_linear (h : t.Built) (hm : t.map.WellFormed) (hflag : t.isEdited = false)
    (hpos : 0 < t.map.parsedLength) (ho : t.parse.root.Ordered) : t.Apart := by
  have hlin : t.map.isLinear = true := by simpa [isEdited] using hflag
  intro up
  apply (h.siblings_ordered ho up).imp
  rintro i j ⟨u, v, slot, slot', hpu, hpv, -, hv, horder⟩
  rw [h.location_of_place hpu, h.location_of_place hpv]
  exact ParseTree.not_overlaps_locateIn (hm.stop_le_start_of_linear hlin hpos horder hv.upright) _

end SyntaxTree

end Polyglot
