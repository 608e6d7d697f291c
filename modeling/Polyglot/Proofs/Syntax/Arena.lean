import Polyglot.Proofs.Syntax.Layout

/-!
# How the nodes are stored

The loop stores the nodes of a parse one by one, and the list of a node's children grows while it
runs. Its invariant is about the subtree that waits in front (`turns_subtree`): after as many turns
as the subtree has nodes, the rest of the stack waits as before, the subtree's layout stands behind
the nodes that were there, and the node above has one more child. So the loop ends after a turn for
each node (`turns_start`), and what it leaves is the layout of the parse (`arena_eq_layout`).
-/

set_option autoImplicit false

namespace Polyglot

namespace Construction

/-- The nodes with more children for one of them. -/
def adopt (nodes : Array Node) (parent : Option Nat) (ids : List Nat) : Array Node :=
  match parent with
  | none => nodes
  | some up => nodes.modify up fun n => { n with children := n.children ++ ids }

section Adopt

variable {nodes : Array Node} {up : Nat} (parent : Option Nat)

@[simp] theorem size_adopt (nodes : Array Node) (ids : List Nat) :
    (adopt nodes parent ids).size = nodes.size := by
  cases parent with
  | none => rfl
  | some up => exact Array.size_modify

theorem getElem?_adopt_some (ids : List Nat) (i : Nat) :
    (adopt nodes (some up) ids)[i]? =
      nodes[i]?.map fun n => if up = i then { n with children := n.children ++ ids } else n := by
  rw [adopt, Array.getElem?_modify]
  split <;> simp

theorem adopt_nil (nodes : Array Node) : adopt nodes parent [] = nodes := by
  cases parent with
  | none => rfl
  | some up =>
    apply Array.ext_getElem?
    intro i
    rw [getElem?_adopt_some]
    simp

theorem adopt_adopt (nodes : Array Node) (l r : List Nat) :
    adopt (adopt nodes parent l) parent r = adopt nodes parent (l ++ r) := by
  cases parent with
  | none => rfl
  | some up =>
    apply Array.ext_getElem?
    intro i
    simp only [getElem?_adopt_some, Option.map_map]
    congr 1
    funext n
    by_cases hup : up = i <;> simp [hup]

/-- A node that is there takes no notice of nodes that come behind. -/
theorem adopt_append (hparent : ∀ up ∈ parent, up < nodes.size) (more : Array Node)
    (ids : List Nat) : adopt (nodes ++ more) parent ids = adopt nodes parent ids ++ more := by
  cases parent with
  | none => rfl
  | some up =>
    have hup := hparent up rfl
    apply Array.ext_getElem?
    intro i
    rw [getElem?_adopt_some]
    by_cases hi : i < nodes.size
    · rw [Array.getElem?_append_left hi, Array.getElem?_append_left (by simpa using hi),
        getElem?_adopt_some]
    · rw [Array.getElem?_append_right (Nat.le_of_not_lt hi),
        Array.getElem?_append_right (by simpa using hi), size_adopt]
      simp [show up ≠ i by omega]

/-- The last node gets its children. -/
theorem adopt_push (nodes : Array Node) (n : Node) (ids : List Nat) :
    adopt (nodes.push n) (some nodes.size) ids =
      nodes.push { n with children := n.children ++ ids } := by
  apply Array.ext_getElem?
  intro i
  rw [getElem?_adopt_some, Array.getElem?_push, Array.getElem?_push]
  by_cases hi : i = nodes.size
  · simp [hi]
  · simp [hi, Ne.symm hi]

end Adopt

theorem store_eq (nodes : Array Node) (n : Node) (hparent : ∀ up ∈ n.parent, up < nodes.size) :
    store nodes n = (adopt nodes n.parent [nodes.size]).push n := by
  have h := adopt_append n.parent hparent #[n] [nodes.size]
  rw [Array.append_singleton, Array.append_singleton] at h
  rw [← h]
  unfold store adopt
  cases n.parent <;> rfl

section Turns

variable (map : OffsetMap) (source : Source)

/-- The state after some turns, if so many are taken. -/
def turns : Nat → Construction → Option Construction
  | 0, c => some c
  | n + 1, c => (c.step map source).bind (turns n)

theorem turns_add (m n : Nat) (c : Construction) :
    turns map source (m + n) c = (turns map source m c).bind (turns map source n) := by
  induction m generalizing c with
  | zero => rw [Nat.zero_add]; rfl
  | succ m ih =>
    rw [Nat.succ_add]
    simp only [turns, Option.bind_assoc]
    congr 1
    funext next
    exact ih next

/-- Once nothing waits the loop has ended. -/
theorem run_of_turns {n : Nat} {c : Construction} {nodes : Array Node}
    (h : turns map source n c = some ⟨nodes, []⟩) : c.run map source = nodes := by
  induction n generalizing c with
  | zero =>
    obtain rfl := Option.some.inj h
    rw [run]
    rfl
  | succ n ih =>
    obtain ⟨next, hstep, hnext⟩ := Option.bind_eq_some_iff.1 h
    rw [run]
    split
    · next next' hstep' =>
      obtain rfl := Option.some.inj (hstep.symm.trans hstep')
      exact ih hnext
    · next hstep' => rw [hstep] at hstep'; cases hstep'

/-- What is known of the node above when a subtree's turn is: it has been stored. -/
def Stored (nodes : Array Node) (outer : Option (Nat × Location)) : Prop :=
  ∀ above ∈ outer, nodes[above.1]?.map (·.location) = some above.2

variable {map source} {nodes : Array Node} {outer : Option (Nat × Location)}

theorem Stored.lt (h : Stored nodes outer) : ∀ up ∈ outer.map (·.1), up < nodes.size := by
  intro up hup
  obtain ⟨above, habove, rfl⟩ := Option.map_eq_some_iff.1 hup
  obtain ⟨n, hn, -⟩ := Option.map_eq_some_iff.1 (h above habove)
  exact (Array.getElem?_eq_some_iff.1 hn).1

/-- Adopting and storing leave the locations of the stored nodes alone. -/
theorem Stored.adopt_append (h : Stored nodes outer) (parent : Option Nat) (ids : List Nat)
    (more : Array Node) : Stored (adopt nodes parent ids ++ more) outer := by
  intro above habove
  obtain ⟨n, hn, hlocation⟩ := Option.map_eq_some_iff.1 (h above habove)
  have hlt := (Array.getElem?_eq_some_iff.1 hn).1
  rw [Array.getElem?_append_left (by simpa using hlt)]
  cases parent with
  | none => exact h above habove
  | some up =>
    rw [getElem?_adopt_some, hn]
    simp only [Option.map_some]
    split <;> exact congrArg some hlocation

theorem Stored.outer_location (h : Stored nodes outer) :
    ((outer.map (·.1)).map fun up => (nodes.getD up default).location) = outer.map (·.2) := by
  cases outer with
  | none => rfl
  | some above =>
    obtain ⟨n, hn, hlocation⟩ := Option.map_eq_some_iff.1 (h above rfl)
    simp only [Option.map_some, Array.getD_eq_getD_getElem?, hn, Option.getD_some, hlocation]

mutual

/-- A subtree in front is stored in as many turns as it has nodes: its layout comes behind the
nodes that are there, and the node above adopts its root. -/
theorem turns_subtree : ∀ (t : ParseTree) {nodes : Array Node} {outer : Option (Nat × Location)}
    (slot : Nat) (rest : List Pending), Stored nodes outer →
    turns map source t.size ⟨nodes, ⟨t, outer.map (·.1), slot⟩ :: rest⟩ =
      some ⟨adopt nodes (outer.map (·.1)) [nodes.size] ++
        (ParseTree.layout map source outer nodes.size slot t).toArray, rest⟩
  | .node label children, nodes, outer, slot, rest, h => by
    let location := ParseTree.locateIn map source (outer.map (·.2)) label.span
    let node : Node := ⟨label.id, label.kind, label.flags, label.field, label.span, location,
      outer.map (·.1), [], slot⟩
    let stored := (adopt nodes (outer.map (·.1)) [nodes.size]).push node
    have hstep : step map source ⟨nodes, ⟨.node label children, outer.map (·.1), slot⟩ :: rest⟩ =
        some ⟨stored, waiting nodes.size 0 children ++ rest⟩ := by
      simp only [step, h.outer_location]
      rw [store_eq nodes node h.lt]
    have hsize : stored.size = nodes.size + 1 := by simp [stored]
    have hnode : Stored stored (some (nodes.size, location)) := by
      rintro above ⟨⟩
      have hlast : stored[nodes.size]? = some node := by
        simp only [stored, Array.getElem?_push, size_adopt, if_true]
      rw [hlast]
      rfl
    -- The children find their parent stored, as the last node so far.
    have hchildren := turns_children children 0 rest hnode
    rw [hsize] at hchildren
    rw [ParseTree.size, Nat.add_comm 1, turns, hstep, Option.bind_some, hchildren]
    have hadopt : adopt stored (some nodes.size) (ParseTree.childIndices (nodes.size + 1) children) =
        (adopt nodes (outer.map (·.1)) [nodes.size]).push
          { node with children := ParseTree.childIndices (nodes.size + 1) children } := by
      have := adopt_push (adopt nodes (outer.map (·.1)) [nodes.size]) node
        (ParseTree.childIndices (nodes.size + 1) children)
      rwa [size_adopt] at this
    rw [hadopt, ParseTree.layout, ← Array.append_singleton, Array.append_assoc]
    simp [node, location]

/-- Adjacent subtrees below one node are stored one after the other. -/
theorem turns_children : ∀ (l : List ParseTree) {nodes : Array Node} {up : Nat}
    {location : Location} (slot : Nat) (rest : List Pending),
    Stored nodes (some (up, location)) →
    turns map source (ParseTree.sizeAll l) ⟨nodes, waiting up slot l ++ rest⟩ =
      some ⟨adopt nodes (some up) (ParseTree.childIndices nodes.size l) ++
        (ParseTree.layoutAll map source (up, location) nodes.size slot l).toArray, rest⟩
  | [], nodes, up, location, slot, rest, h => by
    simp [ParseTree.sizeAll, turns, waiting, ParseTree.childIndices, ParseTree.layoutAll, adopt_nil]
  | t :: l, nodes, up, location, slot, rest, h => by
    have hfirst := turns_subtree t slot (waiting up (slot + 1) l ++ rest) h
    simp only [Option.map_some] at hfirst
    have hrest := turns_children l (slot + 1) rest
      (h.adopt_append (some up) [nodes.size]
        (ParseTree.layout map source (some (up, location)) nodes.size slot t).toArray)
    have hlt : ∀ up' ∈ some up, up' < (adopt nodes (some up) [nodes.size]).size := by
      simpa using h.lt
    simp only [Array.size_append, size_adopt, List.size_toArray, ParseTree.length_layout] at hrest
    rw [ParseTree.sizeAll, turns_add, waiting, List.cons_append, hfirst, Option.bind_some, hrest,
      adopt_append _ hlt, adopt_adopt, Array.append_assoc, ParseTree.childIndices,
      ParseTree.layoutAll]
    simp

end

/-- The loop ends after one turn for each node of the parse. -/
theorem turns_start (map : OffsetMap) (source : Source) (root : ParseTree) :
    turns map source root.size (start root) =
      some ⟨(ParseTree.layout map source none 0 0 root).toArray, []⟩ := by
  have h := @turns_subtree map source root #[] none 0 [] (fun _ habove => nomatch habove)
  simpa [start, adopt] using h

end Turns

end Construction

/-- What the loop leaves is the layout of the parse. -/
theorem ParseTree.arena_eq_layout (map : OffsetMap) (source : Source) (root : ParseTree) :
    root.arena map source = (layout map source none 0 0 root).toArray :=
  Construction.run_of_turns map source (Construction.turns_start map source root)

end Polyglot
