import Polyglot.Proofs.Syntax.Descendants

/-!
# Walks over a subtree

A walk takes the next pending node, and lets its children wait in front of all else. What waits
stands for subtrees, and the walk meets the nodes of each in order of their indices: this is the
invariant of `collectFrom_eq`, which also skips the subtree below a node that is refused. Nothing
that was looked for is lost where a refused node has no accepted one below it. That is so when
nodes are to meet an interval of the source, for a node's location holds those of all nodes below
it. So a search for nodes within bounds gives what is found among all descendants
(`descendantsOfType_complete`).
-/

set_option autoImplicit false

namespace Polyglot

namespace ParseTree

/-- Adjacent subtrees with their indices, the first of which stands at `next`. -/
def standing (next : Nat) : List ParseTree → List (Nat × ParseTree)
  | [] => []
  | t :: rest => (next, t) :: standing (next + t.size) rest

theorem indices_standing (next : Nat) (l : List ParseTree) :
    (standing next l).map (·.1) = childIndices next l := by
  induction l generalizing next with
  | nil => rfl
  | cons t l ih => rw [standing, List.map_cons, ih, childIndices]

theorem trees_standing (next : Nat) (l : List ParseTree) : (standing next l).map (·.2) = l := by
  induction l generalizing next with
  | nil => rfl
  | cons t l ih => rw [standing, List.map_cons, ih]

/-- The indices of subtrees, one subtree after the other. -/
def spread (stack : List (Nat × ParseTree)) : List Nat :=
  stack.flatMap fun p => List.range' p.1 p.2.size

/-- Adjacent subtrees take up adjacent indices. -/
theorem spread_standing (next : Nat) (l : List ParseTree) :
    spread (standing next l) = List.range' next (sizeAll l) := by
  induction l generalizing next with
  | nil => rfl
  | cons t l ih =>
    have ih := ih (next + t.size)
    unfold spread at ih ⊢
    rw [standing, List.flatMap_cons, ih, sizeAll, List.range'_append_1]

theorem exists_split_of_mem_standing {next : Nat} {l : List ParseTree} {p : Nat × ParseTree}
    (h : p ∈ standing next l) :
    ∃ before behind, l = before ++ p.2 :: behind ∧ p.1 = next + sizeAll before := by
  induction l generalizing next with
  | nil => cases h
  | cons t l ih =>
    rcases List.mem_cons.1 h with rfl | h
    · exact ⟨[], l, rfl, rfl⟩
    · obtain ⟨before, behind, rfl, hp⟩ := ih h
      refine ⟨t :: before, behind, rfl, ?_⟩
      rw [hp, sizeAll, Nat.add_assoc]

end ParseTree

namespace SyntaxTree

variable {t : SyntaxTree} {id slot : Nat} {parent : Option (Nat × Location)} {sub : ParseTree}

/-- Each pending index is that of a node, and stands for its subtree. -/
def Standing (t : SyntaxTree) (stack : List (Nat × ParseTree)) : Prop :=
  ∀ p ∈ stack, ∃ parent slot, t.Places parent p.1 slot p.2

/-- The children of a node stand for their subtrees. -/
theorem standing_of_place {label : ParseNode} {children : List ParseTree}
    (hp : t.Places parent id slot (.node label children)) :
    t.Standing (ParseTree.standing (id + 1) children) := by
  rintro ⟨index, u⟩ hmem
  obtain ⟨before, behind, rfl, rfl⟩ := ParseTree.exists_split_of_mem_standing hmem
  exact ⟨_, _, hp.child⟩

/-- A node that is refused has nothing below it that is not. -/
def Prunes (t : SyntaxTree) (reaches : Node → Bool) : Prop :=
  ∀ i j, t.Above i j → reaches (t.node j) = true → reaches (t.node i) = true

/-- Where nothing is refused nothing is skipped. -/
theorem prunes_nothing (t : SyntaxTree) : t.Prunes fun _ => true :=
  fun _ _ _ hreached => hreached

/-- In a subtree whose root is refused nothing is accepted. -/
theorem Built.refused_of_place (h : t.Built) {reaches wanted : Node → Bool}
    (hprunes : t.Prunes reaches) (hp : t.Places parent id slot sub)
    (hroot : reaches (t.node id) = false) :
    (List.range' id sub.size).filter (fun j => reaches (t.node j) && wanted (t.node j)) = [] := by
  apply List.filter_eq_nil_iff.2
  intro j hj
  rw [List.mem_range'_1] at hj
  have hrefused : reaches (t.node j) = false := by
    rcases Nat.eq_or_lt_of_le hj.1 with rfl | hlt
    · exact hroot
    · by_contra hreached
      rw [hprunes id j ((h.above_iff hp).2 ⟨hlt, hj.2⟩) (by simpa using hreached)] at hroot
      cases hroot
  simp [hrefused]

/-- A search with as many turns as there are nodes in the pending subtrees finds what is accepted
in them, one subtree after the other. -/
theorem Built.collectFrom_eq (h : t.Built) {reaches : Node → Bool} (hprunes : t.Prunes reaches)
    (wanted : Node → Bool) : ∀ (fuel : Nat) (stack : List (Nat × ParseTree)), t.Standing stack →
    ParseTree.sizeAll (stack.map (·.2)) ≤ fuel →
    t.collectFrom reaches wanted fuel (stack.map (·.1)) =
      (ParseTree.spread stack).filter fun j => reaches (t.node j) && wanted (t.node j)
  | fuel, [], _, _ => by cases fuel <;> rfl
  | 0, (id, sub) :: rest, _, hfuel => by
    have := sub.size_pos
    simp only [List.map_cons, ParseTree.sizeAll] at hfuel
    omega
  | fuel + 1, (id, .node label children) :: rest, hstack, hfuel => by
    obtain ⟨parent, slot, hp⟩ := hstack _ List.mem_cons_self
    have hrest : t.Standing rest := fun p hmem => hstack p (List.mem_cons_of_mem _ hmem)
    simp only [List.map_cons, ParseTree.sizeAll, ParseTree.size] at hfuel
    rw [List.map_cons, collectFrom, ParseTree.spread, List.flatMap_cons, List.filter_append]
    cases hroot : reaches (t.node id) with
    | false =>
      rw [h.refused_of_place hprunes hp hroot, List.nil_append]
      exact h.collectFrom_eq hprunes wanted fuel rest hrest (by omega)
    | true =>
      -- The children wait in front of the rest.
      have hchildren : (t.node id).children ++ rest.map (·.1) =
          (ParseTree.standing (id + 1) children ++ rest).map (·.1) := by
        rw [h.children_of_place hp, List.map_append, ParseTree.indices_standing]
        rfl
      have ih := h.collectFrom_eq hprunes wanted fuel (ParseTree.standing (id + 1) children ++ rest)
        (fun p hmem => (List.mem_append.1 hmem).elim (standing_of_place hp p) (hrest p))
        (by rw [List.map_append, ParseTree.trees_standing, ParseTree.sizeAll_append]; omega)
      have hspread : ParseTree.spread (ParseTree.standing (id + 1) children ++ rest) =
          List.range' (id + 1) (ParseTree.sizeAll children) ++ ParseTree.spread rest := by
        rw [← ParseTree.spread_standing]
        exact List.flatMap_append
      rw [hspread, List.filter_append] at ih
      rw [hchildren, ih, ParseTree.size, Nat.add_comm 1, List.range'_succ, List.filter_cons, hroot]
      cases wanted (t.node id) <;> simp [ParseTree.spread]

/-- To walk is to collect everything. -/
theorem walkFrom_eq_collectFrom (t : SyntaxTree) (fuel : Nat) (pending : List Nat) :
    t.walkFrom fuel pending = t.collectFrom (fun _ => true) (fun _ => true) fuel pending := by
  induction fuel generalizing pending with
  | zero => cases pending <;> rfl
  | succ fuel ih =>
    cases pending with
    | nil => rfl
    | cons id pending =>
      rw [walkFrom, collectFrom, ih]
      simp

/-- A walk from a node meets the nodes of its subtree, by index. -/
theorem Built.walk_eq (h : t.Built) (hp : t.Places parent id slot sub) :
    (⟨t, id⟩ : SyntaxNode).walk = (List.range' id sub.size).map (SyntaxNode.mk t) := by
  have hfuel : ParseTree.sizeAll ([(id, sub)].map (·.2)) ≤ t.nodes.size := by
    have := hp.index_add_size_le
    simp only [List.map_cons, List.map_nil, ParseTree.sizeAll, h.size_nodes]
    omega
  have hstack : t.Standing [(id, sub)] := by
    intro p hmem
    obtain rfl := List.mem_singleton.1 hmem
    exact ⟨_, _, hp⟩
  have hall := h.collectFrom_eq t.prunes_nothing (fun _ => true) t.nodes.size [(id, sub)] hstack
    hfuel
  rw [SyntaxNode.walk, walkFrom_eq_collectFrom]
  rw [show [id] = [(id, sub)].map (·.1) from rfl, hall]
  simp [ParseTree.spread, SyntaxNode.inTree]

/-- A walk from a node meets the node, and then its strict descendants. -/
theorem Built.walk_eq_cons (h : t.Built) (hid : id < t.nodes.size) :
    (⟨t, id⟩ : SyntaxNode).walk = ⟨t, id⟩ :: (⟨t, id⟩ : SyntaxNode).descendants := by
  obtain ⟨parent, slot, sub, hp⟩ := h.exists_place hid
  have hsize := Nat.sub_add_cancel sub.size_pos
  rw [h.walk_eq hp, h.descendants_eq hp, ← hsize, List.range'_succ, List.map_cons,
    Nat.add_sub_cancel]

/-- A search below a node finds all of its descendants that are accepted, when what it skips has
nothing of them. -/
theorem Built.collect_eq (h : t.Built) {reaches : Node → Bool} (hprunes : t.Prunes reaches)
    (hid : id < t.nodes.size) (kinds : List String) :
    (⟨t, id⟩ : SyntaxNode).collect kinds reaches =
      (⟨t, id⟩ : SyntaxNode).descendants.filter fun d =>
        reaches d.data && kinds.contains d.kind := by
  obtain ⟨parent, slot, ⟨label, children⟩, hp⟩ := h.exists_place hid
  have hfuel : ParseTree.sizeAll ((ParseTree.standing (id + 1) children).map (·.2)) ≤
      t.nodes.size := by
    have := hp.index_add_size_le
    simp only [ParseTree.size] at this
    rw [ParseTree.trees_standing, h.size_nodes]
    omega
  have hfound := h.collectFrom_eq hprunes (fun d => kinds.contains d.kind) t.nodes.size
    (ParseTree.standing (id + 1) children) (standing_of_place hp) hfuel
  rw [ParseTree.indices_standing, ParseTree.spread_standing] at hfound
  rw [SyntaxNode.collect, SyntaxNode.data, h.children_of_place hp, ParseTree.children, hfound,
    h.descendants_eq hp, List.filter_map, ParseTree.size, Nat.add_sub_cancel_left]
  rfl

/-- An interval of the source that a node misses is missed by all nodes below it. -/
theorem Built.prunes_meets (h : t.Built) (start stop : Nat) :
    t.Prunes fun d => d.meets start stop := by
  intro i j habove hmeets
  have hcontains := Location.contains_iff.1 (h.contains_of_above habove)
  simp only [Node.meets, Bool.and_eq_true, decide_eq_true_eq] at hmeets ⊢
  omega

end SyntaxTree

namespace SyntaxNode

/-- A search for descendants of some kinds loses none by skipping what stands below a node outside
the bounds: it gives all strict descendants of these kinds that end where the bounds start or later
and start where they end or earlier. Without bounds it gives all of these kinds. The order is that
of a walk, which meets the node and then all of its strict descendants. -/
theorem descendantsOfType_complete (n : SyntaxNode) (h : n.tree.Built)
    (hid : n.id < n.tree.nodes.size) (kinds : List String) :
    n.walk = n :: n.descendants ∧
    (∀ start stop, n.descendantsOfTypeIn kinds start stop = n.descendants.filter fun d =>
      kinds.contains d.kind &&
        (decide (start ≤ d.location.stop) && decide (d.location.start ≤ max start stop))) ∧
    n.descendantsOfType kinds = n.descendants.filter fun d => kinds.contains d.kind := by
  refine ⟨h.walk_eq_cons hid, fun start stop => ?_, ?_⟩
  · have hfound := h.collect_eq (h.prunes_meets start (max start stop)) hid kinds
    rw [descendantsOfTypeIn, hfound]
    apply List.filter_congr
    intro d _
    exact Bool.and_comm _ _
  · have hfound := h.collect_eq n.tree.prunes_nothing hid kinds
    rw [descendantsOfType, hfound]
    apply List.filter_congr
    intro d _
    exact Bool.true_and _

end SyntaxNode

namespace SyntaxTree

/-- A node of the measured line; the comma is the only one without a name. -/
def measuredNode (id : Nat) (kind : String) (start stop : Nat) : ParseNode :=
  ⟨id, kind, ⟨kind != ",", false, start == stop, false, false⟩, none, ⟨start, stop⟩⟩

/-- Two words with a comma between them, after a cut that the empty letter of the first word stands
at. -/
def measured : SyntaxTree :=
  build .html 0 (Bytes.ofString "ab,cd")
    ⟨.node (measuredNode 10 "line" 0 5)
      [.node (measuredNode 11 "word" 0 2)
          [.node (measuredNode 12 "letter" 0 1) [], .node (measuredNode 13 "letter" 2 2) []],
        .node (measuredNode 14 "," 2 3) [],
        .node (measuredNode 15 "word" 3 5) [.node (measuredNode 16 "letter" 3 4) []]], ""⟩
    ⟨[Segment.copied ⟨0, 2⟩ 0, Segment.replaced ⟨2, 2⟩ ⟨2, 5⟩, Segment.copied ⟨2, 5⟩ 5]⟩
    (Source.ofBytes (Bytes.ofString "ab---,cd"))

/-- The first word ends at the cut, so a search behind the cut skips it and its letters. -/
theorem descendantsOfType_complete_measured :
    (measured.Built ∧ 0 < measured.nodes.size) ∧
    measured.root.descendantsOfTypeIn ["letter"] 6 4 = measured.root.descendants.filter (fun d =>
      ["letter"].contains d.kind &&
        (decide (6 ≤ d.location.stop) && decide (d.location.start ≤ max 6 4))) ∧
    (measured.root.descendantsOfTypeIn ["letter"] 6 4).map (·.id) = [6] ∧
    (measured.node 1).location.span = ⟨0, 2⟩ ∧ (measured.node 3).location.span = ⟨2, 2⟩ ∧
    measured.root.descendants.map (·.id) = [1, 2, 3, 4, 5, 6] := by
  have hbuilt : measured.Built := rfl
  have hroot : 0 < measured.nodes.size := by decide +kernel
  obtain ⟨-, hwithin, -⟩ :=
    SyntaxNode.descendantsOfType_complete measured.root hbuilt hroot ["letter"]
  exact ⟨⟨hbuilt, hroot⟩, hwithin 6 4, by decide +kernel, by decide +kernel, by decide +kernel,
    by decide +kernel⟩

end SyntaxTree

end Polyglot
