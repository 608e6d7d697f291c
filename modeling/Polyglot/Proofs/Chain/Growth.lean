import Polyglot.Proofs.Chain.Ranges
import Polyglot.Proofs.Log

/-!
# How a forest grows

Resolving a chain registers one tree after the other: first that of the whole buffer, then
trees that are cut out of trees which are registered already. `Grows` says what one such step
is, and `grows_of_resolve` that a resolution is a run of these steps. So a property of all trees
of a forest holds if the first tree has it and a cut keeps it (`Grows.forall_trees`); nothing
that is proved that way looks at the recursion of the resolver again.
-/

set_option autoImplicit false

namespace Polyglot

/-- Whatever the editor gives for a slice has a property with respect to it. -/
def Editor.Yields (w : Editor) (P : Bytes → Edit → Prop) : Prop :=
  ∀ slice parent edit, w.edit slice parent = .ok edit → P slice edit

/-- The forest of some trees in the order in which they are found. -/
def Forest.ofTrees (source : Source) (trees : List SyntaxTree) : Forest :=
  trees.foldl Forest.insert (Forest.empty source)

theorem Forest.ofTrees_concat (source : Source) (trees : List SyntaxTree) (t : SyntaxTree) :
    Forest.ofTrees source (trees ++ [t]) = (Forest.ofTrees source trees).insert t := by
  simp [Forest.ofTrees]

theorem Forest.order_foldl_insert (f : Forest) (trees : List SyntaxTree) :
    (trees.foldl Forest.insert f).order = f.order ++ trees := by
  induction trees generalizing f with
  | nil => exact (List.append_nil _).symm
  | cons t trees ih =>
    rw [List.foldl_cons, ih]
    simp [Forest.insert]

theorem Forest.order_ofTrees (source : Source) (trees : List SyntaxTree) :
    (Forest.ofTrees source trees).order = trees :=
  Forest.order_foldl_insert (Forest.empty source) trees

namespace ChainSpec

mutual

/-- The chains nested in a chain, at any depth. -/
def nested : ChainSpec → List ChainSpec
  | .mk _ children _ _ => nestedAmong children

/-- Some chains and those nested in them. -/
def nestedAmong : List ChainSpec → List ChainSpec
  | [] => []
  | s :: rest => s :: (nested s ++ nestedAmong rest)

end

/-- Every editor of a nested chain yields edits of a kind. The root has no use for an editor. -/
def EditorsYield (spec : ChainSpec) (P : Bytes → Edit → Prop) : Prop :=
  ∀ s ∈ spec.nested, ∀ w, s.editor = some w → w.Yields P

theorem mem_nestedAmong {t : ChainSpec} {l : List ChainSpec} :
    t ∈ nestedAmong l ↔ ∃ s ∈ l, t = s ∨ t ∈ s.nested := by
  induction l with
  | nil => simp [nestedAmong]
  | cons s l ih => simp [nestedAmong, ih, or_assoc]

theorem nested_eq (s : ChainSpec) : s.nested = nestedAmong s.children := by
  cases s
  rfl

theorem mem_nested {s t : ChainSpec} :
    t ∈ s.nested ↔ ∃ c ∈ s.children, t = c ∨ t ∈ c.nested := by
  rw [nested_eq]
  exact mem_nestedAmong

mutual

/-- What is nested in a nested chain is nested. -/
theorem nested_trans {s t : ChainSpec} (ht : t ∈ s.nested) :
    ∀ r : ChainSpec, s ∈ r.nested → t ∈ r.nested
  | .mk _ children _ _, hs => nestedAmong_trans ht children hs

theorem nestedAmong_trans {s t : ChainSpec} (ht : t ∈ s.nested) :
    ∀ l : List ChainSpec, s ∈ nestedAmong l → t ∈ nestedAmong l
  | r :: rest, hs => by
    rw [nestedAmong, List.mem_cons, List.mem_append] at hs ⊢
    rcases hs with rfl | hs | hs
    · exact .inr (.inl ht)
    · exact .inr (.inl (nested_trans ht r hs))
    · exact .inr (.inr (nestedAmong_trans ht rest hs))

end

theorem nested_of_child {s t : ChainSpec} (ht : t ∈ s.children) (r : ChainSpec)
    (hs : s ∈ r.nested) : t ∈ r.nested :=
  nested_trans (mem_nested.2 ⟨t, ht, .inl rfl⟩) r hs

/-! ## What the steps of a resolution give -/

variable {grammar : Grammar} {language : Language} {occurrence : Nat} {editor : Option Editor}
  {parent tree : SyntaxTree} {range : Span}

theorem parseRegion_ok {bytes : Bytes} {map : OffsetMap} {source : Source}
    (h : parseRegion grammar language occurrence bytes map source = .ok tree) :
    ∃ parse, grammar language bytes = .ok parse ∧
      tree = SyntaxTree.build language occurrence bytes parse map source := by
  unfold parseRegion at h
  split at h
  · cases h
  · next parse hparse => exact ⟨parse, hparse, (Except.ok.inj h).symm⟩

/-- What is parsed for a slice is of a kind if the slice itself is and the editor makes nothing
else. -/
theorem prepare_ok {P : Bytes → Edit → Prop} {slice : Bytes} {edit : Edit}
    (hkept : P slice (Edit.unchanged slice)) (hyields : ∀ w, editor = some w → w.Yields P)
    (h : prepare language occurrence editor slice parent = .ok edit) : P slice edit := by
  cases editor with
  | none =>
    obtain rfl := Except.ok.inj h
    exact hkept
  | some w => exact hyields w rfl slice parent edit (ok_of_mapError_ok h)

theorem resolveRange_ok
    (h : (resolveRange grammar parent language editor occurrence range).result = .ok tree) :
    ∃ edit,
      prepare language occurrence editor (parent.parsed.slice range.start range.stop) parent =
        .ok edit ∧
      parseRegion grammar language occurrence edit.bytes
        ((edit.map.shiftTargets range.start).andThen parent.map) parent.source = .ok tree := by
  rw [resolveRange_eq] at h
  obtain ⟨edit, hedit, h⟩ := Logged.bind_ok h
  obtain ⟨found, hfound, h⟩ := Logged.bind_ok h
  obtain ⟨-, -, h⟩ := Logged.bind_ok h
  obtain rfl := Except.ok.inj h
  exact ⟨edit, hedit, hfound⟩

theorem resolveRange_of_ok {edit : Edit}
    (hedit : prepare language occurrence editor (parent.parsed.slice range.start range.stop)
      parent = .ok edit)
    (htree : parseRegion grammar language occurrence edit.bytes
      ((edit.map.shiftTargets range.start).andThen parent.map) parent.source = .ok tree) :
    (resolveRange grammar parent language editor occurrence range).result = .ok tree := by
  rw [resolveRange_eq, Logged.result_bind_of_ok hedit, Logged.result_bind_of_ok htree]
  rfl

/-- Behind the tree of the buffer a resolution adds what the nested chains find in it. -/
theorem resolve_ok {buffer : Bytes} {spec : ChainSpec} {forest : Forest}
    (h : (resolve grammar buffer spec).result = .ok forest) :
    ∃ root, parseRegion grammar spec.entry 0 buffer (OffsetMap.identity buffer.length)
        (Source.ofBytes buffer) = .ok root ∧
      (resolveNested grammar root spec.children
        ((Forest.empty (Source.ofBytes buffer)).insert root)).result = .ok forest := by
  rw [resolve_eq] at h
  obtain ⟨-, -, h⟩ := Logged.bind_ok h
  obtain ⟨root, hroot, h⟩ := Logged.bind_ok h
  obtain ⟨grown, hgrown, h⟩ := Logged.bind_ok h
  obtain ⟨-, -, h⟩ := Logged.bind_ok h
  obtain rfl := Except.ok.inj h
  exact ⟨root, hroot, hgrown⟩

end ChainSpec

/-! ## Runs -/

/-- A range that a nested chain picked out of a parent. -/
structure Cut where
  chain : ChainSpec
  range : Span

/-- A tree of a forest and the cuts that lead to it, the last one in front. -/
structure Registered where
  path : List Cut
  tree : SyntaxTree

/-- The chain that the tree was parsed for. -/
def Registered.chain (e : Registered) (spec : ChainSpec) : ChainSpec :=
  (e.path.head?.map (·.chain)).getD spec

/-- The forest of some trees of a buffer, found in this order. -/
def forestOf (buffer : Bytes) (entries : List Registered) : Forest :=
  Forest.ofTrees (Source.ofBytes buffer) (entries.map (·.tree))

/-- The tree is what the cut gives of a parent, as the given occurrence of its language. -/
structure Cut.Gives (grammar : Grammar) (occurrence : Nat) (c : Cut) (parent tree : SyntaxTree) :
    Prop where
  picked : ∃ x, c.chain.extractor = some x ∧ c.range ∈ x.ranges parent parent.parsed
  fits : c.range.fits parent.parsed.length = true
  resolved : (ChainSpec.resolveRange grammar parent c.chain.entry c.chain.editor occurrence
    c.range).result = .ok tree

/-- The tree of a cut is that of an edit of the slice, and its map goes on through that of the
parent. The edit is of a kind if unchanged slices are and the editor makes nothing else. -/
theorem Cut.Gives.edited {grammar : Grammar} {occurrence : Nat} {c : Cut}
    {parent tree : SyntaxTree} (h : c.Gives grammar occurrence parent tree)
    {P : Bytes → Edit → Prop} (hkept : ∀ slice, P slice (Edit.unchanged slice))
    (hyields : ∀ w, c.chain.editor = some w → w.Yields P) :
    ∃ edit, P (parent.parsed.slice c.range.start c.range.stop) edit ∧
      ChainSpec.parseRegion grammar c.chain.entry occurrence edit.bytes
        ((edit.map.shiftTargets c.range.start).andThen parent.map) parent.source = .ok tree := by
  obtain ⟨edit, hedit, htree⟩ := ChainSpec.resolveRange_ok h.resolved
  exact ⟨edit, ChainSpec.prepare_ok (hkept _) hyields hedit, htree⟩

/-- What is registered after some steps of a resolution: the tree of the whole buffer, then
what cuts give of trees that stand already. -/
inductive Grows (grammar : Grammar) (buffer : Bytes) (spec : ChainSpec) :
    List Registered → Prop where
  | root {tree : SyntaxTree}
      (parsed : ChainSpec.parseRegion grammar spec.entry 0 buffer
        (OffsetMap.identity buffer.length) (Source.ofBytes buffer) = .ok tree) :
      Grows grammar buffer spec [⟨[], tree⟩]
  | cut {entries : List Registered} {parent : Registered} {c : Cut} {tree : SyntaxTree}
      (before : Grows grammar buffer spec entries) (registered : parent ∈ entries)
      (child : c.chain ∈ (parent.chain spec).children)
      (gives : c.Gives grammar ((forestOf buffer entries).occurrences c.chain.entry) parent.tree
        tree) :
      Grows grammar buffer spec (entries ++ [⟨c :: parent.path, tree⟩])

theorem forestOf_concat (buffer : Bytes) (entries : List Registered) (e : Registered) :
    forestOf buffer (entries ++ [e]) = (forestOf buffer entries).insert e.tree := by
  unfold forestOf
  rw [List.map_append]
  exact Forest.ofTrees_concat _ _ _

theorem order_forestOf (buffer : Bytes) (entries : List Registered) :
    (forestOf buffer entries).order = entries.map (·.tree) :=
  Forest.order_ofTrees _ _

section Runs

variable {grammar : Grammar} {buffer : Bytes} {spec : ChainSpec} {entries : List Registered}

/-- The forest comes of the given entries by further steps. -/
def Grown (grammar : Grammar) (buffer : Bytes) (spec : ChainSpec) (entries : List Registered)
    (forest : Forest) : Prop :=
  ∃ more, Grows grammar buffer spec (entries ++ more) ∧ forest = forestOf buffer (entries ++ more)

theorem Grown.refl (h : Grows grammar buffer spec entries) :
    Grown grammar buffer spec entries (forestOf buffer entries) :=
  ⟨[], by rwa [List.append_nil], by rw [List.append_nil]⟩

theorem Grown.of_append {more : List Registered} {forest : Forest}
    (h : Grown grammar buffer spec (entries ++ more) forest) :
    Grown grammar buffer spec entries forest := by
  obtain ⟨last, hgrows, rfl⟩ := h
  rw [List.append_assoc] at hgrows ⊢
  exact ⟨more ++ last, hgrows, rfl⟩

mutual

/-- The trees that nested chains find in a parent come of it by steps. -/
theorem grown_resolveNested {entries : List Registered} {parent : Registered}
    (hparent : parent ∈ entries) {forest forest' : Forest}
    (hgrown : Grown grammar buffer spec entries forest) :
    ∀ children : List ChainSpec, (∀ s ∈ children, s ∈ (parent.chain spec).children) →
      (ChainSpec.resolveNested grammar parent.tree children forest).result = .ok forest' →
      Grown grammar buffer spec entries forest'
  | [], _, h => by
    obtain rfl := Except.ok.inj h
    exact hgrown
  | s :: rest, hchildren, h => by
    obtain ⟨hs, hrest⟩ := List.forall_mem_cons.1 hchildren
    rw [ChainSpec.resolveNested_cons] at h
    obtain ⟨middle, hmiddle, h⟩ := Logged.bind_ok h
    exact grown_resolveNested hparent (grown_resolveChild hparent hgrown s hs hmiddle) rest hrest h

theorem grown_resolveChild {entries : List Registered} {parent : Registered}
    (hparent : parent ∈ entries) {forest forest' : Forest}
    (hgrown : Grown grammar buffer spec entries forest) :
    ∀ s : ChainSpec, s ∈ (parent.chain spec).children →
      (ChainSpec.resolveChild grammar parent.tree s forest).result = .ok forest' →
      Grown grammar buffer spec entries forest'
  | .mk entry children none editor, _, h => by
    simp at h
  | .mk entry children (some x) editor, hs, h => by
    rw [ChainSpec.resolveChild_some] at h
    obtain ⟨_, hchecked, h⟩ := Logged.bind_ok h
    refine Logged.foldlM_inv (fun range hrange forest forest' hgrown h => ?_) hgrown h
    obtain ⟨tree, htree, h⟩ := Logged.bind_ok h
    obtain ⟨more, hgrows, rfl⟩ := hgrown
    let c : Cut := ⟨.mk entry children (some x) editor, range⟩
    have hgives : c.Gives grammar ((forestOf buffer (entries ++ more)).occurrences entry)
        parent.tree tree :=
      ⟨⟨x, rfl, hrange⟩, ChainSpec.result_checkRanges_eq_ok_iff.1 hchecked range hrange, htree⟩
    have hnext := hgrows.cut (c := c) (List.mem_append_left _ hparent) hs hgives
    have hlast : (⟨c :: parent.path, tree⟩ : Registered) ∈
        entries ++ more ++ [⟨c :: parent.path, tree⟩] :=
      List.mem_append_right _ List.mem_cons_self
    rw [← forestOf_concat buffer (entries ++ more) ⟨c :: parent.path, tree⟩] at h
    have hgrown := grown_resolveNested hlast (Grown.refl hnext) children (fun s hs => hs) h
    rw [List.append_assoc] at hgrown
    exact hgrown.of_append

end

/-- A resolution that ends well is a run: its forest is that of the trees the steps register. -/
theorem grows_of_resolve {forest : Forest}
    (h : (ChainSpec.resolve grammar buffer spec).result = .ok forest) :
    ∃ entries, Grows grammar buffer spec entries ∧ forest = forestOf buffer entries := by
  obtain ⟨root, hroot, hgrown⟩ := ChainSpec.resolve_ok h
  have hfirst : Grows grammar buffer spec [⟨[], root⟩] := .root hroot
  obtain ⟨more, hgrows, rfl⟩ := grown_resolveNested List.mem_cons_self (Grown.refl hfirst)
    spec.children (fun s hs => hs) hgrown
  exact ⟨_, hgrows, rfl⟩

/-- The chains along a path are nested in that of the resolution. -/
theorem Grows.nested_of_mem (h : Grows grammar buffer spec entries) :
    ∀ e ∈ entries, ∀ c ∈ e.path, c.chain ∈ spec.nested := by
  induction h with
  | root => simp
  | @cut entries parent c tree before registered child gives ih =>
    have hc : c.chain ∈ spec.nested := by
      unfold Registered.chain at child
      cases hpath : parent.path with
      | nil =>
        rw [hpath] at child
        exact ChainSpec.mem_nested.2 ⟨c.chain, child, .inl rfl⟩
      | cons last path =>
        rw [hpath] at child
        exact ChainSpec.nested_of_child child spec
          (ih parent registered last (by rw [hpath]; exact List.mem_cons_self))
    intro e he d hd
    rcases List.mem_append.1 he with he | he
    · exact ih e he d hd
    · obtain rfl := List.mem_singleton.1 he
      rcases List.mem_cons.1 hd with rfl | hd
      · exact hc
      · exact ih parent registered d hd

/-- What the first entry has and a cut keeps, all entries have. -/
theorem Grows.forall_entries (h : Grows grammar buffer spec entries) {P : Registered → Prop}
    (root : ∀ tree, ChainSpec.parseRegion grammar spec.entry 0 buffer
      (OffsetMap.identity buffer.length) (Source.ofBytes buffer) = .ok tree → P ⟨[], tree⟩)
    (cut : ∀ (c : Cut) occurrence, ∀ parent ∈ entries, ∀ tree, c.chain ∈ spec.nested →
      c.Gives grammar occurrence parent.tree tree → P parent → P ⟨c :: parent.path, tree⟩) :
    ∀ e ∈ entries, P e := by
  induction h with
  | root parsed =>
    intro e he
    obtain rfl := List.mem_singleton.1 he
    exact root _ parsed
  | @cut entries parent c tree before registered child gives ih =>
    have hbefore : ∀ e ∈ entries, P e := by
      apply ih
      intro c occurrence parent hparent tree hnested hgives
      exact cut c occurrence parent (List.mem_append_left _ hparent) tree hnested hgives
    have hnested := (before.cut registered child gives).nested_of_mem _
      (List.mem_append_right _ List.mem_cons_self) c List.mem_cons_self
    intro e he
    rcases List.mem_append.1 he with he | he
    · exact hbefore e he
    · obtain rfl := List.mem_singleton.1 he
      exact cut c _ parent (List.mem_append_left _ registered) tree hnested gives
        (hbefore parent registered)

/-- What the first tree has and a cut keeps, all trees have. -/
theorem Grows.forall_trees (h : Grows grammar buffer spec entries) {P : SyntaxTree → Prop}
    (root : ∀ tree, ChainSpec.parseRegion grammar spec.entry 0 buffer
      (OffsetMap.identity buffer.length) (Source.ofBytes buffer) = .ok tree → P tree)
    (cut : ∀ (c : Cut) occurrence, ∀ parent ∈ entries, ∀ tree, c.chain ∈ spec.nested →
      c.Gives grammar occurrence parent.tree tree → P parent.tree → P tree) :
    ∀ e ∈ entries, P e.tree :=
  h.forall_entries (P := fun e => P e.tree) root cut

/-- What the first tree has and a cut keeps, all trees of a forest have. -/
theorem forall_order_of_resolve {forest : Forest} {P : SyntaxTree → Prop}
    (h : (ChainSpec.resolve grammar buffer spec).result = .ok forest)
    (root : ∀ tree, ChainSpec.parseRegion grammar spec.entry 0 buffer
      (OffsetMap.identity buffer.length) (Source.ofBytes buffer) = .ok tree → P tree)
    (cut : ∀ (c : Cut) occurrence, ∀ parent ∈ forest.order, ∀ tree, c.chain ∈ spec.nested →
      c.Gives grammar occurrence parent tree → P parent → P tree) :
    ∀ tree ∈ forest.order, P tree := by
  obtain ⟨entries, hgrows, rfl⟩ := grows_of_resolve h
  rw [order_forestOf] at cut ⊢
  intro tree htree
  obtain ⟨e, he, rfl⟩ := List.mem_map.1 htree
  refine hgrows.forall_trees root (fun c occurrence parent hparent => ?_) e he
  exact cut c occurrence parent.tree (List.mem_map.2 ⟨parent, hparent, rfl⟩)

end Runs

end Polyglot
