import Mathlib.Data.List.Induction
import Polyglot.Chain.Extractors
import Polyglot.Proofs.Chain.Ranges
import Polyglot.Proofs.Syntax.Nesting
import Polyglot.Proofs.Syntax.Shifted

/-!
# Outermost nodes

The extractor of nodes by kind takes the nodes of a walk one by one and leaves out what ends no later
than the last one that it took. It never asks whether one node is above another. What it has taken of
the nodes seen so far are those that reach further than all seen before them (`Records`): a step keeps
this (`Records.step`), so it holds for the whole walk (`exists_records`).

Where children lie inside their parents and siblings in order, a node inside another does not reach
further, and all others lie behind. So the nodes taken are the outermost ones (`Outermost`), and what
the resolver is handed is in order and lies in the parent, where the root does.
-/

set_option autoImplicit false

namespace Polyglot

namespace Extractor

variable {t : SyntaxTree} {seen picked : List Nat} {j id : Nat} {kinds within : List String}

/-! ## What the walk takes -/

/-- The node reaches further than all nodes seen that come before it. -/
def Further (t : SyntaxTree) (seen : List Nat) (j : Nat) : Prop :=
  ∀ i ∈ seen, i < j → (t.node i).parsed.stop < (t.node j).parsed.stop

/-- What comes later does not count. -/
theorem further_append_of_lt (hj : j < id) : Further t (seen ++ [id]) j ↔ Further t seen j := by
  simp only [Further, List.forall_mem_append, List.forall_mem_singleton, and_iff_left_iff_imp]
  exact fun _ hlt => absurd hlt (Nat.lt_asymm hj)

theorem further_append_self (hid : ∀ i ∈ seen, i < id) : Further t (seen ++ [id]) id ↔
    ∀ i ∈ seen, (t.node i).parsed.stop < (t.node id).parsed.stop := by
  simp only [Further, List.forall_mem_append, List.forall_mem_singleton, Nat.lt_irrefl,
    false_implies, and_true]
  exact forall₂_congr fun i hi => forall_prop_of_true (hid i hi)

/-- Of the nodes seen, in the order of their indices, those are picked that reach further than all
seen before them; the last one picked reaches furthest. -/
structure Records (t : SyntaxTree) (seen picked : List Nat) : Prop where
  sublist : picked.Sublist seen
  furthest : ∀ i ∈ seen, ∃ last, picked.getLast? = some last ∧
    (t.node i).parsed.stop ≤ (t.node last).parsed.stop
  mem_iff : ∀ j ∈ seen, j ∈ picked ↔ Further t seen j

theorem Records.nil (t : SyntaxTree) : Records t [] [] :=
  ⟨.slnil, nofun, nofun⟩

/-- A node that reaches no further than the last one picked is left out. -/
theorem Records.skip (h : Records t seen picked) (hid : ∀ i ∈ seen, i < id) {last : Nat}
    (hlast : picked.getLast? = some last)
    (hstop : (t.node id).parsed.stop ≤ (t.node last).parsed.stop) :
    Records t (seen ++ [id]) picked := by
  have hseen := h.sublist.subset (List.mem_of_getLast? hlast)
  have hnew : id ∉ picked := fun hmem => Nat.lt_irrefl id (hid id (h.sublist.subset hmem))
  refine ⟨h.sublist.trans (List.sublist_append_left _ _), ?_, ?_⟩
  · rw [List.forall_mem_append, List.forall_mem_singleton]
    exact ⟨h.furthest, last, hlast, hstop⟩
  · rw [List.forall_mem_append, List.forall_mem_singleton]
    refine ⟨fun j hj => ?_, ?_⟩
    · rw [h.mem_iff j hj, further_append_of_lt (hid j hj)]
    · rw [further_append_self hid]
      exact iff_of_false hnew fun hall => absurd (hall last hseen) (Nat.not_lt.2 hstop)

/-- A node that reaches further than all seen before it is picked. -/
theorem Records.take (h : Records t seen picked) (hid : ∀ i ∈ seen, i < id)
    (hstop : ∀ i ∈ seen, (t.node i).parsed.stop < (t.node id).parsed.stop) :
    Records t (seen ++ [id]) (picked ++ [id]) := by
  refine ⟨h.sublist.append (.refl _), ?_, ?_⟩
  · rw [List.forall_mem_append, List.forall_mem_singleton]
    refine ⟨fun i hi => ?_, id, List.getLast?_concat, Nat.le_refl _⟩
    exact ⟨id, List.getLast?_concat, Nat.le_of_lt (hstop i hi)⟩
  · rw [List.forall_mem_append, List.forall_mem_singleton]
    refine ⟨fun j hj => ?_, ?_⟩
    · have hne : j ∉ [id] := fun hmem => Nat.ne_of_lt (hid j hj) (List.mem_singleton.1 hmem)
      rw [List.mem_append, or_iff_left hne, h.mem_iff j hj, further_append_of_lt (hid j hj)]
    · rw [further_append_self hid]
      exact iff_of_true List.mem_concat_self hstop

/-- The span of the next node is appended or left out as the records say. -/
theorem Records.step (h : Records t seen picked) (hid : ∀ i ∈ seen, i < id) :
    ∃ picked', Records t (seen ++ [id]) picked' ∧
      appendOutside (picked.map fun i => (t.node i).parsed) (t.node id).parsed =
        picked'.map fun i => (t.node i).parsed := by
  cases hlast : picked.getLast? with
  | none =>
    have hnone : picked = [] := List.getLast?_eq_none_iff.1 hlast
    have hfirst : ∀ i ∈ seen, (t.node i).parsed.stop < (t.node id).parsed.stop := by
      intro i hi
      obtain ⟨last, hsome, -⟩ := h.furthest i hi
      rw [hlast] at hsome
      cases hsome
    refine ⟨picked ++ [id], h.take hid hfirst, ?_⟩
    simp [appendOutside, hnone]
  | some last =>
    by_cases hstop : (t.node id).parsed.stop ≤ (t.node last).parsed.stop
    · refine ⟨picked, h.skip hid hlast hstop, ?_⟩
      simp [appendOutside, hlast, hstop]
    · have hfurther : ∀ i ∈ seen, (t.node i).parsed.stop < (t.node id).parsed.stop := by
        intro i hi
        obtain ⟨last', hsome, hle⟩ := h.furthest i hi
        rw [hlast] at hsome
        cases hsome
        omega
      refine ⟨picked ++ [id], h.take hid hfurther, ?_⟩
      simp [appendOutside, hlast, hstop]

theorem exists_records (t : SyntaxTree) {ids : List Nat} (hascend : ids.Pairwise (· < ·)) :
    ∃ picked, Records t ids picked ∧
      (ids.map fun i => (t.node i).parsed).foldl appendOutside [] =
        picked.map fun i => (t.node i).parsed := by
  induction ids using List.reverseRecOn with
  | nil => exact ⟨[], .nil t, rfl⟩
  | append_singleton seen id ih =>
    obtain ⟨hseen, -, hid⟩ := List.pairwise_append.1 hascend
    obtain ⟨picked, hrecords, hfold⟩ := ih hseen
    obtain ⟨picked', hrecords', hstep⟩ :=
      hrecords.step fun i hi => hid i hi id List.mem_cons_self
    refine ⟨picked', hrecords', ?_⟩
    rw [List.map_append, List.foldl_append, hfold]
    exact hstep

/-! ## Nodes that qualify -/

/-- The node is of one of the kinds and, if any are given, below a node of one of the others. -/
structure Qualifying (t : SyntaxTree) (kinds within : List String) (id : Nat) : Prop where
  stored : id < t.nodes.size
  listed : (t.node id).kind ∈ kinds
  below : within ≠ [] → ∃ up, t.Above up id ∧ (t.node up).kind ∈ within

theorem closest?_isSome_iff (h : t.Built) (hid : id < t.nodes.size) :
    ((⟨t, id⟩ : SyntaxNode).closest? within).isSome = true ↔
      ∃ up, t.Above up id ∧ (t.node up).kind ∈ within := by
  rw [SyntaxNode.closest?, List.find?_isSome]
  constructor
  · rintro ⟨a, ha, hkind⟩
    have habove := (h.mem_ancestors hid).1 (List.mem_map_of_mem ha)
    obtain ⟨up, -, rfl⟩ := List.mem_map.1 ha
    exact ⟨up, habove, List.contains_iff_mem.1 hkind⟩
  · rintro ⟨up, habove, hkind⟩
    obtain ⟨a, ha, rfl⟩ := List.mem_map.1 ((h.mem_ancestors hid).2 habove)
    refine ⟨a, ha, List.contains_iff_mem.2 ?_⟩
    obtain ⟨up, -, rfl⟩ := List.mem_map.1 ha
    exact hkind

theorem qualifies_iff (h : t.Built) (hid : id < t.nodes.size) :
    qualifies kinds within ⟨t, id⟩ = true ↔ Qualifying t kinds within id := by
  rw [qualifies, Bool.and_eq_true, Bool.or_eq_true, List.isEmpty_iff, closest?_isSome_iff h hid,
    List.contains_iff_mem]
  constructor
  · rintro ⟨hkind, hwithin⟩
    exact ⟨hid, hkind, fun hne => hwithin.resolve_left hne⟩
  · rintro ⟨-, hkind, hbelow⟩
    exact ⟨hkind, Classical.or_iff_not_imp_left.2 hbelow⟩

/-- The nodes that qualify, by index. -/
def qualifying (t : SyntaxTree) (kinds within : List String) : List Nat :=
  (List.range t.nodes.size).filter fun id => qualifies kinds within ⟨t, id⟩

theorem mem_qualifying (h : t.Built) :
    id ∈ qualifying t kinds within ↔ Qualifying t kinds within id := by
  rw [qualifying, List.mem_filter, List.mem_range]
  constructor
  · rintro ⟨hid, hqualifies⟩
    exact (qualifies_iff h hid).1 hqualifies
  · intro hqualifying
    exact ⟨hqualifying.stored, (qualifies_iff h hqualifying.stored).2 hqualifying⟩

theorem pairwise_qualifying (t : SyntaxTree) (kinds within : List String) :
    (qualifying t kinds within).Pairwise (· < ·) :=
  List.pairwise_lt_range.filter _

theorem ranges_ofKinds (h : t.Built) (bytes : Bytes) :
    (ofKinds kinds within).ranges t bytes =
      ((qualifying t kinds within).map fun id => (t.node id).parsed).foldl appendOutside [] := by
  have hwalk : t.root.walk = (List.range t.nodes.size).map (SyntaxNode.mk t) := by
    rw [SyntaxTree.root, h.walk_eq .root, h.size_nodes, List.range_eq_range']
  simp only [ofKinds, hwalk, List.filter_map, List.map_map]
  rfl

/-! ## The outermost ones -/

/-- Nodes that are picked, by index, out of those that qualify: none is below one that qualifies, no
two overlap, and none that has a byte is missing, unless it is below one that qualifies. -/
structure Outermost (t : SyntaxTree) (kinds within : List String) (picked : List Nat) : Prop where
  ascend : picked.Pairwise (· < ·)
  qualify : ∀ id ∈ picked, Qualifying t kinds within id
  top : ∀ id ∈ picked, ∀ up, Qualifying t kinds within up → ¬ t.Above up id
  apart : picked.Pairwise fun i j => (t.node i).parsed.stop ≤ (t.node j).parsed.start
  complete : ∀ id, Qualifying t kinds within id →
    (t.node id).parsed.start < (t.node id).parsed.stop →
    (∀ up, Qualifying t kinds within up → ¬ t.Above up id) → id ∈ picked

theorem outermost_of_records (h : t.Built) (hn : t.parse.root.Nested) (ho : t.parse.root.Ordered)
    (hrecords : Records t (qualifying t kinds within) picked) :
    Outermost t kinds within picked := by
  have hascend := (pairwise_qualifying t kinds within).sublist hrecords.sublist
  have hqualify : ∀ id ∈ picked, Qualifying t kinds within id := fun id hid =>
    (mem_qualifying h).1 (hrecords.sublist.subset hid)
  -- A node that qualifies and is above another one comes first and reaches as far.
  have htop : ∀ id ∈ picked, ∀ up, Qualifying t kinds within up → ¬ t.Above up id := by
    intro id hid up hup habove
    obtain ⟨_, _, _, hplace⟩ := h.exists_place hup.stored
    have hfurther := (hrecords.mem_iff id (hrecords.sublist.subset hid)).1 hid up
      ((mem_qualifying h).2 hup) (h.lt_of_above habove hplace).1
    have hinside := h.parsed_inside_of_atOrAbove hn habove.to_reflTransGen
    exact absurd hfurther (Nat.not_lt.2 hinside.2)
  refine ⟨hascend, hqualify, htop, ?_, ?_⟩
  · apply hascend.imp_of_mem
    intro i j hi hj hij
    have habove := htop j hj i (hqualify i hi)
    exact (h.above_or_before hn ho hij (hqualify j hj).stored).resolve_left habove
  · intro id hid hbyte hnone
    rw [hrecords.mem_iff id ((mem_qualifying h).2 hid)]
    intro i hi hlt
    have hbefore := (h.above_or_before hn ho hlt hid.stored).resolve_left
      (hnone i ((mem_qualifying h).1 hi))
    exact Nat.lt_of_le_of_lt hbefore hbyte

/-- In a parse that nests, what is picked lies in the parent's bytes, if the root does. -/
theorem Outermost.fits (h : t.Built) (hn : t.parse.root.Nested) (ho : t.parse.root.Ordered)
    {length : Nat} (hroot : t.root.data.parsed.fits length = true)
    (hpicked : Outermost t kinds within picked) :
    ∀ id ∈ picked, (t.node id).parsed.fits length = true := by
  rw [SyntaxTree.root, SyntaxNode.data, h.parsed_of_place .root, Span.fits_iff] at hroot
  intro id hid
  apply h.fits_of_preorder _ (hpicked.qualify id hid).stored
  intro n hmem
  obtain ⟨hupright, hinside⟩ := ParseTree.inside_of_mem_preorder hn ho n hmem
  exact Span.fits_iff.2 ⟨hupright, Nat.le_trans hinside.2 hroot.2⟩

/-- Where children lie inside their parents and siblings in order, the extractor of nodes by kind
returns the spans of the outermost nodes that qualify, in order and apart from each other. The
resolver accepts them without a warning, if the root lies in the parent's bytes. -/
theorem ofKinds_outermost (h : t.Built) (hn : t.parse.root.Nested) (ho : t.parse.root.Ordered)
    (kinds within : List String) :
    ∃ picked, Outermost t kinds within picked ∧
      (∀ bytes, (ofKinds kinds within).ranges t bytes = picked.map fun id => (t.node id).parsed) ∧
      (t.root.data.parsed.fits t.parsed.length = true → ∀ language,
        ChainSpec.checkRanges language (ofKinds kinds within).name t.parsed.length 0
          ((ofKinds kinds within).ranges t t.parsed) = pure ()) := by
  obtain ⟨picked, hrecords, hfold⟩ := exists_records t (pairwise_qualifying t kinds within)
  have hpicked := outermost_of_records h hn ho hrecords
  have hranges : ∀ bytes, (ofKinds kinds within).ranges t bytes =
      picked.map fun id => (t.node id).parsed := fun bytes => by rw [ranges_ofKinds h, hfold]
  refine ⟨picked, hpicked, hranges, fun hroot language => ?_⟩
  rw [hranges]
  apply ChainSpec.checkRanges_eq_pure_iff.2
  constructor
  · exact List.forall_mem_map.2 (hpicked.fits h hn ho hroot)
  · exact List.pairwise_map.2 hpicked.apart

/-- The words of the measured line are picked, and their letters are not. -/
theorem ofKinds_outermost_measured :
    (SyntaxTree.measured.Built ∧ SyntaxTree.measured.parse.root.Nested ∧
      SyntaxTree.measured.parse.root.Ordered) ∧
    (∃ picked, Outermost SyntaxTree.measured ["letter", "word"] ["line"] picked ∧
      picked.map (fun id => (SyntaxTree.measured.node id).parsed) = [⟨0, 2⟩, ⟨3, 5⟩]) ∧
    SyntaxTree.measured.root.data.parsed.fits SyntaxTree.measured.parsed.length = true ∧
    ChainSpec.checkRanges .css "kinds[letter,word]" SyntaxTree.measured.parsed.length 0
      [⟨0, 2⟩, ⟨3, 5⟩] = pure () := by
  have hbuilt : SyntaxTree.measured.Built := rfl
  have hnested : SyntaxTree.measured.parse.root.Nested := by
    simp [SyntaxTree.measured, SyntaxTree.build, SyntaxTree.measuredNode, ParseTree.Nested,
      ParseTree.NestedIn, ParseTree.label, Span.Inside]
  have hordered : SyntaxTree.measured.parse.root.Ordered := by
    simp [SyntaxTree.measured, SyntaxTree.build, SyntaxTree.measuredNode, ParseTree.Ordered,
      ParseTree.OrderedAll, ParseTree.label]
  obtain ⟨picked, hpicked, hranges, haccepted⟩ :=
    ofKinds_outermost hbuilt hnested hordered ["letter", "word"] ["line"]
  have hrun : (ofKinds ["letter", "word"] ["line"]).ranges SyntaxTree.measured
      SyntaxTree.measured.parsed = [⟨0, 2⟩, ⟨3, 5⟩] := by decide +kernel
  have hroot : SyntaxTree.measured.root.data.parsed.fits SyntaxTree.measured.parsed.length = true := by
    decide +kernel
  have haccept := haccepted hroot .css
  rw [hranges] at hrun
  rw [hranges, hrun] at haccept
  exact ⟨⟨hbuilt, hnested, hordered⟩, ⟨picked, hpicked, hrun⟩, hroot, haccept⟩

end Extractor

end Polyglot
