import Mathlib.Data.List.Lex
import Mathlib.Data.List.Pairwise
import Polyglot.Proofs.Chain.Occurrences

/-!
# The places of trees

The way to a tree of a forest is its place: at each step the number of a nested chain and the number
of a tree among those that this chain finds in the tree before (`Place`). What a chain finds in a
tree depends on the two alone (`ChainSpec.finds`), so all trees below a tree can be listed with
their places without a forest (`ChainSpec.placed`). That list is what a resolution registers, up to
the numbers of occurrence (`unnumbered_of_resolve`), and its places stand in lexicographic order
(`pairwise_placed`).

Whatever else is nested beside the chains on the way to a place, or below the last of them, the tree
at the place is the same (`Kept.mem_placed`). A chain is made into another by putting nested chains
in another order, removing and adding some, at any depth; those that stay are within both (`Within`),
and all places of these are kept (`Within.exists_between`).
-/

set_option autoImplicit false

namespace Polyglot

/-- The steps from the first tree to a tree: the number of the nested chain, and the number of the
tree among those that the chain finds in one parent. -/
abbrev Place := List (Nat × Nat)

namespace Place

/-- One place is registered before the other: it lies on the way there, or where the ways part it
goes on with an earlier chain or with an earlier tree of the chain. -/
def Before : Place → Place → Prop :=
  List.Lex fun step step' => step.1 < step'.1 ∨ step.1 = step'.1 ∧ step.2 < step'.2

theorem before_of_chain {i j n m : Nat} (h : i < j) (p q : Place) :
    Before ((i, n) :: p) ((j, m) :: q) :=
  .rel (.inl h)

theorem before_of_tree {i n m : Nat} (h : n < m) (p q : Place) :
    Before ((i, n) :: p) ((i, m) :: q) :=
  .rel (.inr ⟨rfl, h⟩)

end Place

namespace Forest

/-- The trees in the order of their registration, each as the first one of its language. -/
def unnumbered (f : Forest) : List SyntaxTree :=
  f.order.map SyntaxTree.unnumbered

theorem unnumbered_insert (f : Forest) (t : SyntaxTree) :
    (f.insert t).unnumbered = f.unnumbered ++ [t.unnumbered] :=
  List.map_append

end Forest

namespace ChainSpec

/-- The trees that a nested chain finds in a parent, each as the first of its language. -/
def finds (grammar : Grammar) (parent : SyntaxTree) (s : ChainSpec) : List SyntaxTree :=
  match s.extractor with
  | none => []
  | some x => (x.ranges parent parent.parsed).filterMap fun range =>
    (resolveRange grammar parent s.entry s.editor 0 range).result.toOption

mutual

/-- The trees below a parent that come of nested chains numbered from `i` on, with their places. -/
def placedIn (grammar : Grammar) (parent : SyntaxTree) (i : Nat) :
    List ChainSpec → List (Place × SyntaxTree)
  | [] => []
  | s :: rest => placedBy grammar parent i s ++ placedIn grammar parent (i + 1) rest

/-- The trees below a parent that come of the nested chain of a number, with their places. -/
def placedBy (grammar : Grammar) (parent : SyntaxTree) (i : Nat) :
    ChainSpec → List (Place × SyntaxTree)
  | .mk entry children extractor editor =>
    (finds grammar parent (.mk entry children extractor editor)).zipIdx.flatMap fun found =>
      (([], found.1) :: placedIn grammar found.1 0 children).map fun e =>
        ((i, found.2) :: e.1, e.2)

end

/-- A tree that a chain was parsed to, and those below it, with their places. -/
def placed (grammar : Grammar) (tree : SyntaxTree) (s : ChainSpec) : List (Place × SyntaxTree) :=
  ([], tree) :: placedIn grammar tree 0 s.children

/-- The chains are the same but for what is nested in them. -/
structure Alike (s s' : ChainSpec) : Prop where
  entry : s.entry = s'.entry
  extractor : s.extractor = s'.extractor
  editor : s.editor = s'.editor

/-- The two places lead through chains that are the same but for what is nested in them, and to
trees of the same numbers. -/
inductive Kept : ChainSpec → ChainSpec → Place → Place → Prop where
  | here {s s' : ChainSpec} : Kept s s' [] []
  | step {s s' c c' : ChainSpec} {i i' : Nat} {place place' : Place} (n : Nat)
      (child : s.children[i]? = some c) (child' : s'.children[i']? = some c') (alike : c.Alike c')
      (rest : Kept c c' place place') : Kept s s' ((i, n) :: place) ((i', n) :: place')

/-- The chain with nested chains added to it anywhere, and those beside each other in another order:
each nested chain has its counterpart in it. -/
inductive Within : ChainSpec → ChainSpec → Prop where
  | mk {entry : Language} {children children' : List ChainSpec} {extractor : Option Extractor}
      {editor : Option Editor} (counterpart : ChainSpec → ChainSpec)
      (nested : ∀ c ∈ children, counterpart c ∈ children')
      (within : ∀ c ∈ children, Within c (counterpart c)) :
      Within (.mk entry children extractor editor) (.mk entry children' extractor editor)

section Places

variable {grammar : Grammar} {parent tree t : SyntaxTree} {s c : ChainSpec}
  {children : List ChainSpec} {i j n : Nat} {place : Place}

/-! ## Membership -/

theorem placedBy_eq (grammar : Grammar) (parent : SyntaxTree) (i : Nat) (s : ChainSpec) :
    placedBy grammar parent i s = (finds grammar parent s).zipIdx.flatMap fun found =>
      (placed grammar found.1 s).map fun e => ((i, found.2) :: e.1, e.2) := by
  cases s
  rfl

theorem mem_placedBy_iff : (place, t) ∈ placedBy grammar parent i s ↔
    ∃ n rest found, place = (i, n) :: rest ∧ (finds grammar parent s)[n]? = some found ∧
      (rest, t) ∈ placed grammar found s := by
  simp only [placedBy_eq, List.mem_flatMap, List.mem_map, Prod.exists, Prod.mk.injEq]
  constructor
  · rintro ⟨found, n, hfound, rest, u, hmem, rfl, rfl⟩
    exact ⟨n, rest, found, rfl, List.mem_zipIdx_iff_getElem?.1 hfound, hmem⟩
  · rintro ⟨n, rest, found, rfl, hfound, hmem⟩
    exact ⟨found, n, List.mem_zipIdx_iff_getElem?.2 hfound, rest, t, hmem, rfl, rfl⟩

theorem mem_placedIn_iff : (place, t) ∈ placedIn grammar parent i children ↔
    ∃ j c, children[j]? = some c ∧ (place, t) ∈ placedBy grammar parent (i + j) c := by
  induction children generalizing i with
  | nil => simp [placedIn]
  | cons s rest ih =>
    rw [placedIn, List.mem_append, ih]
    constructor
    · rintro (h | ⟨j, c, hc, h⟩)
      · exact ⟨0, s, rfl, h⟩
      · exact ⟨j + 1, c, hc, by rwa [show i + (j + 1) = i + 1 + j by omega]⟩
    · rintro ⟨j, c, hc, h⟩
      cases j with
      | zero =>
        obtain rfl := Option.some.inj hc
        exact .inl h
      | succ j => exact .inr ⟨j, c, hc, by rwa [show i + 1 + j = i + (j + 1) by omega]⟩

/-- At the empty place stands the tree itself. -/
theorem mem_placed_nil : ([], t) ∈ placed grammar tree s ↔ t = tree := by
  unfold placed
  rw [List.mem_cons, mem_placedIn_iff]
  constructor
  · rintro (h | ⟨j, c, -, h⟩)
    · exact (Prod.mk.inj h).2
    · obtain ⟨n, rest, found, hplace, -⟩ := mem_placedBy_iff.1 h
      cases hplace
  · rintro rfl
    exact .inl rfl

/-- The first step of a place leads to a tree that a nested chain finds. -/
theorem mem_placed_cons : ((i, n) :: place, t) ∈ placed grammar tree s ↔
    ∃ c found, s.children[i]? = some c ∧ (finds grammar tree c)[n]? = some found ∧
      (place, t) ∈ placed grammar found c := by
  unfold placed
  rw [List.mem_cons, mem_placedIn_iff]
  simp only [mem_placedBy_iff]
  constructor
  · rintro (h | ⟨j, c, hc, m, rest, found, hplace, hfound, h⟩)
    · cases h
    · obtain ⟨hstep, rfl⟩ := List.cons.inj hplace
      obtain ⟨rfl, rfl⟩ := Prod.mk.inj hstep
      rw [Nat.zero_add]
      exact ⟨c, found, hc, hfound, h⟩
  · rintro ⟨c, found, hc, hfound, h⟩
    exact .inr ⟨i, c, hc, n, place, found, by rw [Nat.zero_add], hfound, h⟩

/-- What a chain finds does not depend on what is nested in it. -/
theorem Alike.finds {s s' : ChainSpec} (h : s.Alike s') (grammar : Grammar)
    (parent : SyntaxTree) : finds grammar parent s = finds grammar parent s' := by
  unfold ChainSpec.finds
  rw [h.entry, h.extractor, h.editor]

/-- Where a place is kept, the same tree stands. -/
theorem Kept.mem_placed {s s' : ChainSpec} {place place' : Place} (h : Kept s s' place place')
    (tree t : SyntaxTree) :
    (place, t) ∈ placed grammar tree s ↔ (place', t) ∈ placed grammar tree s' := by
  induction h generalizing tree with
  | here => rw [mem_placed_nil, mem_placed_nil]
  | @step _ _ c c' _ _ _ _ n child child' alike rest ih =>
    -- Both chains find the same trees, so the places go on in the same tree.
    rw [mem_placed_cons, mem_placed_cons, child, child']
    constructor
    · rintro ⟨d, found, hd, hfound, h⟩
      obtain rfl := Option.some.inj hd
      rw [alike.finds] at hfound
      exact ⟨c', found, rfl, hfound, (ih found).1 h⟩
    · rintro ⟨d, found, hd, hfound, h⟩
      obtain rfl := Option.some.inj hd
      rw [← alike.finds] at hfound
      exact ⟨c, found, rfl, hfound, (ih found).2 h⟩

/-! ## Rearranging -/

theorem Alike.symm {s s' : ChainSpec} (h : s.Alike s') : s'.Alike s :=
  ⟨h.entry.symm, h.extractor.symm, h.editor.symm⟩

theorem Alike.trans {r s s' : ChainSpec} (h : r.Alike s) (h' : s.Alike s') : r.Alike s' :=
  ⟨h.entry.trans h'.entry, h.extractor.trans h'.extractor, h.editor.trans h'.editor⟩

/-- A place that is kept in two chains is kept from the one to the other. -/
theorem Kept.between {r s s' : ChainSpec} {place p p' : Place} (h : Kept r s place p)
    (h' : Kept r s' place p') : Kept s s' p p' := by
  induction h generalizing s' p' with
  | here =>
    cases h'
    exact .here
  | step n child child' alike rest ih =>
    cases h' with
    | step _ again child'' alike' rest' =>
      obtain rfl := Option.some.inj (child.symm.trans again)
      exact .step n child' child'' (alike.symm.trans alike') (ih rest')

theorem Within.alike {s s' : ChainSpec} (h : Within s s') : s.Alike s' := by
  cases h
  exact ⟨rfl, rfl, rfl⟩

theorem Within.refl : ∀ s : ChainSpec, Within s s
  | .mk _ children _ _ => .mk id (fun _ h => h) fun c hc =>
    have : sizeOf c < sizeOf children := List.sizeOf_lt_of_mem hc
    Within.refl c

/-- Chains can be put in another order and others put beside them. -/
theorem Within.of_subset {entry : Language} {children children' : List ChainSpec}
    (h : children ⊆ children') (extractor : Option Extractor) (editor : Option Editor) :
    Within (.mk entry children extractor editor) (.mk entry children' extractor editor) :=
  .mk id h fun c _ => Within.refl c

/-- No place is lost when chains are put in another order or added anywhere. -/
theorem Within.exists_kept {s s' : ChainSpec} (h : Within s s')
    (hplace : (place, t) ∈ placed grammar tree s) : ∃ place', Kept s s' place place' := by
  induction h generalizing place tree with
  | @mk _ children _ _ _ counterpart nested within ih =>
    cases place with
    | nil => exact ⟨[], .here⟩
    | cons step rest =>
      obtain ⟨c, found, hc, -, hrest⟩ := mem_placed_cons.1 hplace
      have hmem : c ∈ children := List.mem_of_getElem? hc
      obtain ⟨i', hi'⟩ := List.mem_iff_getElem?.1 (nested c hmem)
      obtain ⟨place', hkept⟩ := ih c hmem hrest
      exact ⟨_, .step step.2 hc hi' (within c hmem).alike hkept⟩

/-- What stands at a place of the chains that stay when one chain is made into another stands at a
place that is kept. -/
theorem Within.exists_between {r s s' : ChainSpec} (h : Within r s) (h' : Within r s')
    (hplace : (place, t) ∈ placed grammar tree r) :
    ∃ p p', Kept s s' p p' ∧ (p, t) ∈ placed grammar tree s := by
  obtain ⟨p, hp⟩ := h.exists_kept hplace
  obtain ⟨p', hp'⟩ := h'.exists_kept hplace
  exact ⟨p, p', hp.between hp', (hp.mem_placed tree t).1 hplace⟩

/-! ## Order -/

theorem pairwise_zipIdx (l : List SyntaxTree) (k : Nat) :
    (l.zipIdx k).Pairwise fun a b => a.2 < b.2 := by
  rw [← List.pairwise_map (f := Prod.snd) (R := (· < ·)), List.zipIdx_map_snd]
  exact List.pairwise_lt_range'

mutual

/-- Nested chains place their trees in the order of the places. -/
theorem pairwise_placedIn (grammar : Grammar) : ∀ (children : List ChainSpec)
    (parent : SyntaxTree) (i : Nat),
    (placedIn grammar parent i children).Pairwise fun e e' => e.1.Before e'.1
  | [], _, _ => .nil
  | s :: rest, parent, i => by
    rw [placedIn, List.pairwise_append]
    refine ⟨pairwise_placedBy grammar s parent i, pairwise_placedIn grammar rest parent (i + 1), ?_⟩
    rintro ⟨place, t⟩ h ⟨place', t'⟩ h'
    obtain ⟨n, p, -, rfl, -⟩ := mem_placedBy_iff.1 h
    obtain ⟨j, c, -, h'⟩ := mem_placedIn_iff.1 h'
    obtain ⟨m, q, -, rfl, -⟩ := mem_placedBy_iff.1 h'
    exact Place.before_of_chain (by omega) p q

theorem pairwise_placedBy (grammar : Grammar) : ∀ (s : ChainSpec) (parent : SyntaxTree) (i : Nat),
    (placedBy grammar parent i s).Pairwise fun e e' => e.1.Before e'.1
  | .mk entry children extractor editor, parent, i => by
    -- Below one tree the first step is the same; between two it decides.
    rw [placedBy, List.pairwise_flatMap]
    constructor
    · rintro ⟨found, n⟩ -
      rw [List.pairwise_map, List.pairwise_cons]
      constructor
      · rintro ⟨place, t⟩ h
        obtain ⟨j, c, -, h⟩ := mem_placedIn_iff.1 h
        obtain ⟨m, rest, -, rfl, -⟩ := mem_placedBy_iff.1 h
        exact .cons .nil
      · exact (pairwise_placedIn grammar children found 0).imp .cons
    · apply (pairwise_zipIdx _ 0).imp
      intro a b hlt e he e' he'
      obtain ⟨e, -, rfl⟩ := List.mem_map.1 he
      obtain ⟨e', -, rfl⟩ := List.mem_map.1 he'
      exact Place.before_of_tree hlt e.1 e'.1

end

/-- A tree and those below it stand in the order of their places. -/
theorem pairwise_placed (grammar : Grammar) (tree : SyntaxTree) (s : ChainSpec) :
    (placed grammar tree s).Pairwise fun e e' => e.1.Before e'.1 := by
  refine List.pairwise_cons.2 ⟨?_, pairwise_placedIn grammar s.children tree 0⟩
  rintro ⟨place, t⟩ h
  obtain ⟨j, c, -, h⟩ := mem_placedIn_iff.1 h
  obtain ⟨m, rest, -, rfl, -⟩ := mem_placedBy_iff.1 h
  exact .nil

end Places

/-! ## Resolutions -/

section Resolutions

variable {grammar : Grammar}

/-- The trees that a chain places, in their order. -/
theorem trees_placedBy (grammar : Grammar) (parent : SyntaxTree) (i : Nat) (s : ChainSpec) :
    (placedBy grammar parent i s).map (·.2) = (finds grammar parent s).flatMap fun found =>
      (placed grammar found s).map (·.2) := by
  conv_rhs => rw [← List.zipIdx_map_fst 0 (finds grammar parent s), List.flatMap_map]
  simp only [placedBy_eq, List.map_flatMap, List.map_map]
  rfl

mutual

/-- What nested chains add to a forest is what they place below the unnumbered parent. -/
theorem unnumbered_resolveNested : ∀ (children : List ChainSpec),
    (∀ s ∈ nestedAmong children, s.Blind) → ∀ (parent : SyntaxTree) (i : Nat)
      {forest forest' : Forest},
      (resolveNested grammar parent children forest).result = .ok forest' →
      forest'.unnumbered =
        forest.unnumbered ++ (placedIn grammar parent.unnumbered i children).map (·.2)
  | [], _, parent, i, forest, forest', h => by
    obtain rfl := Except.ok.inj h
    exact (List.append_nil _).symm
  | s :: rest, hblind, parent, i, forest, forest', h => by
    obtain ⟨hs, hmore⟩ := List.forall_mem_cons.1 hblind
    obtain ⟨hnested, hrest⟩ := List.forall_mem_append.1 hmore
    rw [resolveNested_cons] at h
    obtain ⟨middle, hmiddle, h⟩ := Logged.bind_ok h
    rw [unnumbered_resolveNested rest hrest parent (i + 1) h,
      unnumbered_resolveChild s hs hnested parent i hmiddle, placedIn, List.map_append,
      List.append_assoc]

theorem unnumbered_resolveChild : ∀ (s : ChainSpec), s.Blind → (∀ t ∈ s.nested, t.Blind) →
    ∀ (parent : SyntaxTree) (i : Nat) {forest forest' : Forest},
      (resolveChild grammar parent s forest).result = .ok forest' →
      forest'.unnumbered =
        forest.unnumbered ++ (placedBy grammar parent.unnumbered i s).map (·.2)
  | .mk entry children none editor, _, _, _, _, _, _, h => by
    simp at h
  | .mk entry children (some x) editor, hs, hnested, parent, i, forest, forest', h => by
    rw [resolveChild_some] at h
    obtain ⟨_, -, h⟩ := Logged.bind_ok h
    have hfinds : finds grammar parent.unnumbered (.mk entry children (some x) editor) =
        (x.ranges parent parent.parsed).filterMap fun range =>
          (resolveRange grammar parent.unnumbered entry editor 0 range).result.toOption := by
      rw [← hs.picks x rfl]
      rfl
    -- Range after range, the tree that is found is appended and then what is placed below it.
    rw [trees_placedBy, hfinds, List.filterMap_eq_flatMap_toList, List.flatMap_assoc]
    refine Logged.foldlM_appends (fun range _ forest forest' h => ?_) h
    obtain ⟨tree, htree, h⟩ := Logged.bind_ok h
    have hfound : (resolveRange grammar parent.unnumbered entry editor 0 range).result =
        .ok tree.unnumbered := resolveRange_unnumbered hs.edits htree
    rw [unnumbered_resolveNested children hnested tree 0 h, Forest.unnumbered_insert, hfound,
      List.append_assoc]
    simp [Except.toOption, placed, ChainSpec.children]

end

/-- A resolution registers, in this order, the trees that the chain places below the tree of the
buffer. Only the numbers of occurrence are put in. -/
theorem unnumbered_of_resolve {buffer : Bytes} {spec : ChainSpec} {forest : Forest}
    (hblind : ∀ s ∈ spec.nested, s.Blind)
    (h : (resolve grammar buffer spec).result = .ok forest) :
    ∃ root, parseRegion grammar spec.entry 0 buffer (OffsetMap.identity buffer.length)
        (Source.ofBytes buffer) = .ok root ∧
      forest.unnumbered = (placed grammar root spec).map (·.2) := by
  obtain ⟨root, hroot, hforest⟩ := resolve_ok h
  have hfirst : root.unnumbered = root := by
    obtain ⟨parse, -, rfl⟩ := parseRegion_ok hroot
    rfl
  rw [nested_eq] at hblind
  refine ⟨root, hroot, ?_⟩
  rw [unnumbered_resolveNested spec.children hblind root 0 hforest, Forest.unnumbered_insert,
    hfirst]
  rfl

end Resolutions

end ChainSpec

end Polyglot
