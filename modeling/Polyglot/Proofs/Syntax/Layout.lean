import Polyglot.Proofs.OffsetMap.Images
import Polyglot.Syntax.Tree

/-!
# How a parse is laid out

The nodes of a parse can be written down by recursion: `layout` gives those of a subtree once its
index and its parent are known, for how many indices it takes up is its size.

The layout of a parse is one list, but its nodes stand in the parse. `Placed` says which subtree
takes up which index, below which parent, and every index is taken up by one
(`exists_placed`). What holds of the root of a parse and passes from a node to its children so
holds of all nodes, by induction on `Placed`.
-/

set_option autoImplicit false

namespace Polyglot

namespace ParseTree

/-- The indices of adjacent subtrees, the first of which stands at `next`. -/
def childIndices (next : Nat) : List ParseTree → List Nat
  | [] => []
  | t :: rest => next :: childIndices (next + t.size) rest

mutual

/-- The nodes of a subtree whose root takes index `next`. -/
def layout (map : OffsetMap) (source : Source) (parent : Option (Nat × Location))
    (next slot : Nat) : ParseTree → List Node
  | .node label children =>
    let location := locateIn map source (parent.map (·.2)) label.span
    ⟨label.id, label.kind, label.flags, label.field, label.span, location, parent.map (·.1),
      childIndices (next + 1) children, slot⟩ ::
      layoutAll map source (next, location) (next + 1) 0 children

/-- The nodes of adjacent subtrees below one parent. -/
def layoutAll (map : OffsetMap) (source : Source) (parent : Nat × Location)
    (next slot : Nat) : List ParseTree → List Node
  | [] => []
  | t :: rest =>
    layout map source (some parent) next slot t ++
      layoutAll map source parent (next + t.size) (slot + 1) rest

end

theorem size_pos (t : ParseTree) : 0 < t.size := by
  cases t
  simp only [size]
  omega

theorem sizeAll_concat (l : List ParseTree) (t : ParseTree) :
    sizeAll (l ++ [t]) = sizeAll l + t.size := by
  simp only [sizeAll_append, sizeAll, Nat.add_zero]

theorem label_mem_preorder (t : ParseTree) : t.label ∈ t.preorder := by
  cases t
  exact List.mem_cons_self

theorem mem_preorderAll {n : ParseNode} {l : List ParseTree} :
    n ∈ preorderAll l ↔ ∃ t ∈ l, n ∈ t.preorder := by
  induction l with
  | nil => simp [preorderAll]
  | cons t l ih => simp [preorderAll, ih]

section Layout

variable (map : OffsetMap) (source : Source)

mutual

theorem length_layout : ∀ (t : ParseTree) (parent : Option (Nat × Location)) (next slot : Nat),
    (layout map source parent next slot t).length = t.size
  | .node label children, parent, next, slot => by
    simp only [layout, List.length_cons, size, length_layoutAll children]
    omega

theorem length_layoutAll : ∀ (l : List ParseTree) (parent : Nat × Location) (next slot : Nat),
    (layoutAll map source parent next slot l).length = sizeAll l
  | [], _, _, _ => rfl
  | t :: rest, parent, next, slot => by
    simp only [layoutAll, List.length_append, sizeAll, length_layout t, length_layoutAll rest]

end

theorem layoutAll_append (parent : Nat × Location) (next slot : Nat) (l r : List ParseTree) :
    layoutAll map source parent next slot (l ++ r) =
      layoutAll map source parent next slot l ++
        layoutAll map source parent (next + sizeAll l) (slot + l.length) r := by
  induction l generalizing next slot with
  | nil => simp [layoutAll, sizeAll]
  | cons t l ih =>
    simp only [List.cons_append, layoutAll, ih, sizeAll, List.length_cons, List.append_assoc]
    congr 3
    · omega
    · omega

/-- A subtree of a parse with its place in the layout: what is above it, its index, and its
place among the children there. -/
inductive Placed (root : ParseTree) : Option (Nat × Location) → Nat → Nat → ParseTree → Prop where
  | root : Placed root none 0 0 root
  | child {parent : Option (Nat × Location)} {index slot : Nat} {label : ParseNode}
      {before behind : List ParseTree} {t : ParseTree}
      (above : Placed root parent index slot (.node label (before ++ t :: behind))) :
      Placed root (some (index, locateIn map source (parent.map (·.2)) label.span))
        (index + 1 + sizeAll before) before.length t

variable {map source} {root : ParseTree} {parent : Option (Nat × Location)} {index slot : Nat}

/-- A subtree is the whole parse, or a child of one with its own place. -/
theorem Placed.eq_root_or_below {t : ParseTree}
    (h : Placed map source root parent index slot t) :
    (parent = none ∧ index = 0) ∨
      ∃ above up slot' label before behind,
        Placed map source root above up slot' (.node label (before ++ t :: behind)) ∧
        parent = some (up, locateIn map source (above.map (·.2)) label.span) ∧
        index = up + 1 + sizeAll before := by
  cases h with
  | root => exact .inl ⟨rfl, rfl⟩
  | child above => exact .inr ⟨_, _, _, _, _, _, above, rfl, rfl⟩

/-- The nodes of a subtree are nodes of the parse. -/
theorem Placed.mem_preorder {t : ParseTree} (h : Placed map source root parent index slot t)
    {n : ParseNode} (hn : n ∈ t.preorder) : n ∈ root.preorder := by
  induction h with
  | root => exact hn
  | child above ih =>
    apply ih
    apply List.mem_cons_of_mem
    exact mem_preorderAll.2 ⟨_, by simp, hn⟩

/-- The layout of a subtree is a part of the layout of the parse. -/
theorem Placed.getElem? {t : ParseTree} (h : Placed map source root parent index slot t) {j : Nat}
    (hj : j < t.size) :
    (layout map source none 0 0 root)[index + j]? =
      (layout map source parent index slot t)[j]? := by
  induction h generalizing j with
  | root => rw [Nat.zero_add]
  | @child parent index slot label before behind t above ih =>
    have hsize : sizeAll before + j + 1 < size (.node label (before ++ t :: behind)) := by
      simp only [size, sizeAll_append, sizeAll]
      omega
    rw [show index + 1 + sizeAll before + j = index + (sizeAll before + j + 1) by omega,
      ih hsize]
    simp only [layout, List.getElem?_cons_succ, layoutAll_append, layoutAll]
    rw [List.getElem?_append_right (by rw [length_layoutAll]; omega), length_layoutAll,
      List.getElem?_append_left (by rw [length_layout]; omega),
      show sizeAll before + j - sizeAll before = j by omega, Nat.zero_add]

mutual

/-- Every index of the layout of a subtree is taken up by a subtree of it. -/
theorem exists_placed_inside : ∀ (t : ParseTree) {parent : Option (Nat × Location)}
    {index slot : Nat}, Placed map source root parent index slot t → ∀ j < t.size,
      ∃ parent' slot' t', Placed map source root parent' (index + j) slot' t'
  | .node label children, parent, index, slot, h, 0, _ => ⟨parent, slot, _, h⟩
  | .node label children, parent, index, slot, h, j + 1, hj => by
    obtain ⟨parent', slot', t', h'⟩ :=
      exists_placed_among children [] h j (by simp only [size] at hj; omega)
    refine ⟨parent', slot', t', ?_⟩
    rwa [show index + (j + 1) = index + 1 + sizeAll [] + j by simp only [sizeAll]; omega]

theorem exists_placed_among : ∀ (l before : List ParseTree) {parent : Option (Nat × Location)}
    {index slot : Nat} {label : ParseNode},
    Placed map source root parent index slot (.node label (before ++ l)) → ∀ j < sizeAll l,
      ∃ parent' slot' t', Placed map source root parent' (index + 1 + sizeAll before + j) slot' t'
  | [], _, _, _, _, _, _, _, hj => absurd hj (Nat.not_lt_zero _)
  | t :: rest, before, _, index, _, label, h, j, hj => by
    by_cases hlt : j < t.size
    · exact exists_placed_inside t h.child j hlt
    · rw [List.append_cons] at h
      have hrest : j - t.size < sizeAll rest := by
        simp only [sizeAll] at hj
        omega
      obtain ⟨parent', slot', t', h'⟩ := exists_placed_among rest (before ++ [t]) h _ hrest
      refine ⟨parent', slot', t', ?_⟩
      rwa [sizeAll_concat, show index + 1 + (sizeAll before + t.size) + (j - t.size) =
        index + 1 + sizeAll before + j by omega] at h'

end

/-- Every index of the layout is taken up by a subtree. -/
theorem exists_placed {j : Nat} (hj : j < root.size) :
    ∃ parent slot t, Placed map source root parent j slot t := by
  have h : Placed map source root none 0 0 root := .root
  obtain ⟨parent, slot, t, h'⟩ := exists_placed_inside root h j hj
  rw [Nat.zero_add] at h'
  exact ⟨parent, slot, t, h'⟩

end Layout

end ParseTree

end Polyglot
