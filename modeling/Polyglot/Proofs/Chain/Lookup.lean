import Polyglot.Proofs.Chain.Verbatim
import Polyglot.Proofs.Syntax.Bounds
import Polyglot.Proofs.Syntax.Descent

/-!
# Looking up a range

A lookup answers with the last node of the way down to the range, and a lookup among named nodes with
the last named one on the way. So both answers stand on one chain of nodes that cover the range, from
the node where the lookup starts to the first one without a child that covers it (`Found`). If no two
siblings share a byte, nothing off this chain covers a range with a byte in it, and so the answer is
the smallest node. Siblings share none in a tree whose path has no editor (`Verbatim.apart`), nor in
one that is not flagged as edited (`Built.apart_of_linear`).
-/

set_option autoImplicit false

namespace Polyglot

/-- The last member of an ascending list is its largest. -/
theorem getLast?_eq_some_iff_of_pairwise {l : List Nat} (hl : l.Pairwise (· < ·)) {m : Nat} :
    l.getLast? = some m ↔ m ∈ l ∧ ∀ d ∈ l, d ≤ m := by
  have hlargest : ∀ {m : Nat}, l.getLast? = some m → m ∈ l ∧ ∀ d ∈ l, d ≤ m := by
    intro m hm
    obtain ⟨front, rfl⟩ := List.getLast?_eq_some_iff.1 hm
    refine ⟨List.mem_concat_self, fun d hd => ?_⟩
    rcases List.mem_append.1 hd with hd | hd
    · exact Nat.le_of_lt ((List.pairwise_append.1 hl).2.2 d hd m List.mem_cons_self)
    · exact Nat.le_of_eq (List.mem_singleton.1 hd)
  refine ⟨hlargest, fun ⟨hm, hle⟩ => ?_⟩
  cases hlast : l.getLast? with
  | none =>
    rw [List.getLast?_eq_none_iff.1 hlast] at hm
    cases hm
  | some last =>
    obtain ⟨hmem, hge⟩ := hlargest hlast
    rw [Nat.le_antisymm (hle last hmem) (hge m hm)]

namespace SyntaxNode

/-- The first node is the second or one of its ancestors. -/
def AtOrAbove (m r : SyntaxNode) : Prop :=
  m = r ∨ m ∈ r.ancestors

/-- At the second node a search from the first one for the range has come to an end. -/
structure Found (n r : SyntaxNode) (s e : Nat) : Prop where
  below : r ∈ n.walk
  covers : ∀ d ∈ n.walk, d.AtOrAbove r → d.data.covers s e = true
  stuck : ∀ c ∈ r.children, c.data.covers s e = false

/-- The third node is the nearest named one on the way up from the second to the first. -/
structure NearestNamed (n r m : SyntaxNode) : Prop where
  below : m ∈ n.walk
  above : m.AtOrAbove r
  named : m.data.flags.named = true
  nearest : ∀ d ∈ n.walk, m.AtOrAbove d → d.AtOrAbove r → d.data.flags.named = true → d = m

end SyntaxNode

namespace SyntaxTree

variable {t : SyntaxTree} {i j m r a b s e : Nat} {path : List Nat}

theorem Built.atOrAbove_mk (h : t.Built) (hj : j < t.nodes.size) :
    (⟨t, i⟩ : SyntaxNode).AtOrAbove ⟨t, j⟩ ↔ t.AtOrAbove i j := by
  rw [SyntaxNode.AtOrAbove, atOrAbove_iff, SyntaxNode.ancestors, List.mem_map]
  simp only [SyntaxNode.inTree, SyntaxNode.mk.injEq, true_and, h.mem_ancestorsFrom (Nat.le_of_lt hj),
    exists_eq_right, eq_comm (a := i)]

namespace Descends

theorem lt_size (hd : t.Descends s e i path r) (h : t.Built) (hi : i < t.nodes.size) :
    r < t.nodes.size :=
  (hd.atOrAbove h).lt_size hi

/-- What a lookup goes through is the way down. -/
theorem descent_eq (hd : t.Descends s e i path r) (h : t.Built)
    (hcovers : (t.node i).covers s e = true) :
    (⟨t, i⟩ : SyntaxNode).descent s e = path.map (SyntaxNode.mk t) := by
  rw [← hd.descentFrom_eq h (Nat.le_add_left t.nodes.size i)]
  exact if_pos hcovers

/-- A lookup finds the end of the way. -/
theorem descendantAt?_eq (hd : t.Descends (min a b) (max a b) i path r) (h : t.Built)
    (hcovers : (t.node i).covers (min a b) (max a b) = true) :
    (⟨t, i⟩ : SyntaxNode).descendantAt? a b = some ⟨t, r⟩ := by
  rw [SyntaxNode.descendantAt?, hd.descent_eq h hcovers, List.getLast?_map, hd.getLast?_eq]
  rfl

/-- A lookup among named nodes finds the last named one on the way. -/
theorem namedDescendantAt?_eq (hd : t.Descends (min a b) (max a b) i path r) (h : t.Built)
    (hcovers : (t.node i).covers (min a b) (max a b) = true) :
    (⟨t, i⟩ : SyntaxNode).namedDescendantAt? a b =
      (path.filter fun d => (t.node d).flags.named).getLast?.map (SyntaxNode.mk t) := by
  rw [SyntaxNode.namedDescendantAt?, hd.descent_eq h hcovers, List.filter_map, List.getLast?_map]
  rfl

/-- The last named node on the way is the nearest one to its end. -/
theorem getLast?_named_iff (hd : t.Descends s e i path r) (h : t.Built) :
    (path.filter fun d => (t.node d).flags.named).getLast? = some m ↔
      (t.AtOrAbove i m ∧ t.AtOrAbove m r ∧ (t.node m).flags.named = true) ∧
        ∀ d, t.AtOrAbove m d → t.AtOrAbove d r → (t.node d).flags.named = true → d = m := by
  rw [getLast?_eq_some_iff_of_pairwise ((hd.pairwise_lt h).filter _)]
  simp only [List.mem_filter, hd.mem_iff h, and_assoc]
  constructor
  · rintro ⟨him, hmr, hnamed, hlast⟩
    refine ⟨him, hmr, hnamed, fun d hmd hdr hd => ?_⟩
    exact Nat.le_antisymm (hlast d ⟨him.trans hmd, hdr, hd⟩) (h.le_of_atOrAbove hmd)
  · rintro ⟨him, hmr, hnamed, hnearest⟩
    refine ⟨him, hmr, hnamed, fun d ⟨_, hdr, hd⟩ => ?_⟩
    rcases hmr.total hdr with hmd | hdm
    · exact Nat.le_of_eq (hnearest d hmd hdr hd)
    · exact h.le_of_atOrAbove hdm

variable (h : t.Built) (hi : i < t.nodes.size)
include h hi

theorem found (hd : t.Descends s e i path r) (hcovers : (t.node i).covers s e = true) :
    (⟨t, i⟩ : SyntaxNode).Found ⟨t, r⟩ s e := by
  refine ⟨(h.mem_walk hi _).2 ⟨r, rfl, hd.atOrAbove h⟩, fun m hm hmr => ?_,
    (toward?_eq_none_iff _).1 hd.stuck⟩
  obtain ⟨d, rfl, -⟩ := (h.mem_walk hi m).1 hm
  rw [h.atOrAbove_mk (hd.lt_size h hi)] at hmr
  exact h.covers_of_atOrAbove hmr (hd.covers_last h hcovers)

/-- Where siblings are apart, the end of the way to a range with a byte in it is the smallest node
around it. -/
theorem smallest (hd : t.Descends s e i path r) (ha : t.Apart) (hse : s < e) {m : SyntaxNode}
    (hm : m ∈ (⟨t, i⟩ : SyntaxNode).walk) (hcovers : m.data.covers s e = true) :
    m.AtOrAbove ⟨t, r⟩ ∧ m.location.contains (t.node r).location = true := by
  obtain ⟨d, rfl, hid⟩ := (h.mem_walk hi m).1 hm
  have hdr := hd.atOrAbove_last h ha hse hid hcovers
  exact ⟨(h.atOrAbove_mk (hd.lt_size h hi)).2 hdr, h.contains_of_atOrAbove hdr⟩

theorem nearestNamed_iff (hd : t.Descends s e i path r) (m : SyntaxNode) :
    (path.filter fun d => (t.node d).flags.named).getLast?.map (SyntaxNode.mk t) = some m ↔
      (⟨t, i⟩ : SyntaxNode).NearestNamed ⟨t, r⟩ m := by
  have hr := hd.lt_size h hi
  rw [Option.map_eq_some_iff]
  constructor
  · rintro ⟨m, hlast, rfl⟩
    obtain ⟨⟨him, hmr, hnamed⟩, hnearest⟩ := (hd.getLast?_named_iff h).1 hlast
    refine ⟨(h.mem_walk hi _).2 ⟨m, rfl, him⟩, (h.atOrAbove_mk hr).2 hmr, hnamed, ?_⟩
    intro d hd hmd hdr hnamed
    obtain ⟨d, rfl, hid⟩ := (h.mem_walk hi d).1 hd
    rw [h.atOrAbove_mk (AtOrAbove.lt_size hid hi)] at hmd
    rw [h.atOrAbove_mk hr] at hdr
    rw [hnearest d hmd hdr hnamed]
  · rintro ⟨hbelow, habove, hnamed, hnearest⟩
    obtain ⟨m, rfl, him⟩ := (h.mem_walk hi m).1 hbelow
    rw [h.atOrAbove_mk hr] at habove
    refine ⟨m, (hd.getLast?_named_iff h).2 ⟨⟨him, habove, hnamed⟩, ?_⟩, rfl⟩
    intro d hmd hdr hnamed
    have hid := him.trans hmd
    exact congrArg SyntaxNode.id (hnearest ⟨t, d⟩ ((h.mem_walk hi _).2 ⟨d, rfl, hid⟩)
      ((h.atOrAbove_mk (AtOrAbove.lt_size hid hi)).2 hmd) ((h.atOrAbove_mk hr).2 hdr) hnamed)

/-- Without a named node on the way there is none to be found. -/
theorem getLast?_named_eq_none_iff (hd : t.Descends s e i path r) :
    (path.filter fun d => (t.node d).flags.named).getLast? = none ↔
      ∀ d ∈ (⟨t, i⟩ : SyntaxNode).walk, d.AtOrAbove ⟨t, r⟩ → d.data.flags.named = false := by
  have hr := hd.lt_size h hi
  rw [List.getLast?_eq_none_iff, List.filter_eq_nil_iff]
  constructor
  · intro hnone d hd' hdr
    obtain ⟨d, rfl, hid⟩ := (h.mem_walk hi d).1 hd'
    rw [h.atOrAbove_mk hr] at hdr
    exact Bool.eq_false_iff.2 (hnone d ((hd.mem_iff h).2 ⟨hid, hdr⟩))
  · intro hnone d hmem
    obtain ⟨hid, hdr⟩ := (hd.mem_iff h).1 hmem
    exact Bool.eq_false_iff.1 (hnone ⟨t, d⟩ ((h.mem_walk hi _).2 ⟨d, rfl, hid⟩)
      ((h.atOrAbove_mk hr).2 hdr))

end Descends

end SyntaxTree

/-- On a path without editors siblings share no byte, if those of the parse do not. -/
theorem Registered.Verbatim.apart {grammar : Grammar} {buffer : Bytes} {e : Registered}
    (h : e.Verbatim grammar buffer) (hr : e.tree.parse.root.Regular e.tree.parsed.length)
    (ho : e.tree.parse.root.Ordered) : e.tree.Apart := by
  rw [h.length_parsed, ← h.parsedLength] at hr
  exact h.built.apart_of_shifts h.shifts h.reach_le hr ho

namespace SyntaxNode

/-- A lookup of a range from a node on comes to an end before its bound. It fails just when the node
does not cover the range, the ends of which may be swapped. Otherwise it finds a node at or below
where it started, such that all nodes between cover the range and no child of the found node does; and
the lookup among named nodes finds the nearest named one from there up to the start, if there is any.

If no siblings share a byte, every node below the start that covers a range with a byte in it is the
found node or above it, and where a node with a byte in it starts at an empty range so does the found
node. Siblings share no byte in a tree that is not flagged as edited, if the grammar returns spans
that are in order for siblings, nor in a tree without editors on its path, if the spans lie in the
parsed bytes and nest as well. -/
theorem descendantAt?_smallest (n : SyntaxNode) (h : n.tree.Built)
    (hid : n.id < n.tree.nodes.size) (a b : Nat) :
    (∀ fuel, n.tree.nodes.size ≤ fuel → descentFrom (min a b) (max a b) fuel n =
      descentFrom (min a b) (max a b) n.tree.nodes.size n) ∧
    (n.descendantAt? a b = none ↔ n.data.covers (min a b) (max a b) = false) ∧
    (n.descendantAt? a b = none → n.namedDescendantAt? a b = none) ∧
    (∀ r, n.descendantAt? a b = some r →
      n.Found r (min a b) (max a b) ∧
      (∀ m, n.namedDescendantAt? a b = some m ↔ n.NearestNamed r m) ∧
      (n.namedDescendantAt? a b = none ↔
        ∀ d ∈ n.walk, d.AtOrAbove r → d.data.flags.named = false) ∧
      (n.tree.Apart →
        (a ≠ b → ∀ d ∈ n.walk, d.data.covers (min a b) (max a b) = true →
          d.AtOrAbove r ∧ d.location.contains r.location = true) ∧
        (a = b → ∀ d ∈ n.walk, d.location.start = a → d.location.start < d.location.stop →
          r.location.start = a))) ∧
    (n.tree.map.WellFormed → n.tree.isEdited = false → 0 < n.tree.map.parsedLength →
      n.tree.parse.root.Ordered → n.tree.Apart) ∧
    ∀ (grammar : Grammar) (buffer : Bytes) (spec : ChainSpec) (entries : List Registered),
      Grows grammar buffer spec entries → ∀ e ∈ entries, e.tree = n.tree →
        (∀ c ∈ e.path, c.chain.editor = none) →
        n.tree.parse.root.Regular n.tree.parsed.length → n.tree.parse.root.Ordered →
        n.tree.Apart := by
  obtain ⟨t, i⟩ := n
  obtain ⟨path, r, hway⟩ := h.exists_descends (min a b) (max a b) i
  have hmissed : (t.node i).covers (min a b) (max a b) = false →
      (⟨t, i⟩ : SyntaxNode).descent (min a b) (max a b) = [] :=
    fun hcovers => if_neg (Bool.eq_false_iff.1 hcovers)
  have hfound : (t.node i).covers (min a b) (max a b) = true →
      (⟨t, i⟩ : SyntaxNode).descendantAt? a b = some ⟨t, r⟩ := hway.descendantAt?_eq h
  have hnone : (⟨t, i⟩ : SyntaxNode).descendantAt? a b = none ↔
      (t.node i).covers (min a b) (max a b) = false := by
    constructor
    · intro hnone
      apply Bool.eq_false_iff.2
      intro hcovers
      rw [hfound hcovers] at hnone
      cases hnone
    · intro hcovers
      simp [descendantAt?, hmissed hcovers]
  refine ⟨fun fuel hfuel => ?_, hnone, fun hnothing => ?_, fun r' hr' => ?_, h.apart_of_linear, ?_⟩
  · have hmore := hway.descentFrom_eq h (Nat.le_add_left_of_le hfuel)
    rw [← hway.descentFrom_eq h (Nat.le_add_left _ _)] at hmore
    exact (List.cons.inj hmore).2
  · simp [namedDescendantAt?, hmissed (hnone.1 hnothing)]
  · have hcovers : (t.node i).covers (min a b) (max a b) = true := by
      by_contra hnot
      rw [hnone.2 (Bool.eq_false_iff.2 hnot)] at hr'
      cases hr'
    rw [hfound hcovers] at hr'
    obtain rfl := Option.some.inj hr'
    have hnamed := hway.namedDescendantAt?_eq h hcovers
    rw [hnamed, Option.map_eq_none_iff]
    refine ⟨hway.found h hid hcovers, hway.nearestNamed_iff h hid,
      hway.getLast?_named_eq_none_iff h hid, fun ha => ⟨fun hab m hm hmcovers => ?_, ?_⟩⟩
    · exact hway.smallest h hid ha (by omega) hm hmcovers
    · rintro rfl m hm hstart hlt
      obtain ⟨d, rfl, hd⟩ := (h.mem_walk hid m).1 hm
      rw [Nat.min_self, Nat.max_self] at hway hcovers
      exact hway.start_last h ha hcovers hd hstart (hstart ▸ hlt)
  · rintro grammar buffer spec entries hgrows e he rfl hplain hr ho
    exact (Registered.verbatim_of_plain hgrows e he hplain).apart hr ho

end SyntaxNode

namespace Sample

theorem ordered_of_grammar {language : Language} {bytes : Bytes} {parse : Parse}
    (h : grammar language bytes = .ok parse) : parse.root.Ordered := by
  obtain rfl := Except.ok.inj h
  simp [ParseTree.Ordered, ParseTree.OrderedAll]

end Sample

namespace SyntaxTree

/-- On the measured line the comma stands alone behind the cut and has no name, and behind it a word
and its letter start alike. No siblings share a byte there, nor in the page of two lines, nor in the
back half of a section. -/
theorem descendantAt?_measured :
    (measured.Built ∧ 0 < measured.nodes.size ∧ measured.Apart) ∧
    (∃ comma line, measured.root.descendantAt? 6 5 = some comma ∧ comma.id = 4 ∧
      measured.root.Found comma 5 6 ∧
      measured.root.namedDescendantAt? 6 5 = some line ∧ line.id = 0 ∧
      measured.root.NearestNamed comma line ∧
      ∀ d ∈ measured.root.walk, d.data.covers 5 6 = true →
        d.AtOrAbove comma ∧ d.location.contains comma.location = true) ∧
    (∃ letter, measured.root.descendantAt? 6 6 = some letter ∧ letter.id = 6 ∧
      letter.location.start = 6) ∧
    (SyntaxNode.twoLines.isEdited = false ∧ SyntaxNode.twoLines.Apart) ∧
    Sample.halfTree ∈ Sample.plainForest.order ∧ Sample.halfTree.Apart := by
  have hbuilt : measured.Built := rfl
  have hsize : measured.nodes.size = 7 := by decide +kernel
  have hroot : 0 < measured.nodes.size := by omega
  have hapart : measured.Apart := by
    have hnodes : ∀ up < 7, (measured.node up).children.Pairwise fun i j =>
        ¬ (measured.node i).location.span.Overlaps (measured.node j).location.span := by
      decide +kernel
    intro up
    by_cases hup : up < 7
    · exact hnodes up hup
    · rw [node_of_le (by omega)]
      exact .nil
  refine ⟨⟨hbuilt, hroot, hapart⟩, ?_, ?_, ⟨by decide +kernel, ?_⟩, List.get_mem _ _, ?_⟩
  · have hcomma : (measured.root.descendantAt? 6 5).map (·.id) = some 4 := by decide +kernel
    have hline : (measured.root.namedDescendantAt? 6 5).map (·.id) = some 0 := by decide +kernel
    obtain ⟨comma, hcomma, hcommaId⟩ := Option.map_eq_some_iff.1 hcomma
    obtain ⟨line, hline, hlineId⟩ := Option.map_eq_some_iff.1 hline
    obtain ⟨-, -, -, hsome, -⟩ := SyntaxNode.descendantAt?_smallest measured.root hbuilt hroot 6 5
    obtain ⟨hfound, hnamed, -, hall⟩ := hsome comma hcomma
    exact ⟨comma, line, hcomma, hcommaId, hfound, hline, hlineId, (hnamed line).1 hline,
      (hall hapart).1 (by decide)⟩
  · have hletter : (measured.root.descendantAt? 6 6).map (·.id) = some 6 := by decide +kernel
    obtain ⟨letter, hletter, hletterId⟩ := Option.map_eq_some_iff.1 hletter
    obtain ⟨-, -, -, hsome, -⟩ := SyntaxNode.descendantAt?_smallest measured.root hbuilt hroot 6 6
    obtain ⟨-, -, -, hall⟩ := hsome letter hletter
    -- The word is the fifth node, a child of the root.
    have hword : ⟨measured, 5⟩ ∈ measured.root.walk :=
      (hbuilt.mem_walk hroot _).2 ⟨5, rfl, .single (by decide +kernel)⟩
    exact ⟨letter, hletter, hletterId,
      (hall hapart).2 rfl _ hword (by decide +kernel) (by decide +kernel)⟩
  · have hordered : SyntaxNode.twoLines.parse.root.Ordered := by
      simp [SyntaxNode.twoLines, build, measuredNode, ParseTree.Ordered, ParseTree.OrderedAll,
        ParseTree.label]
    obtain ⟨-, -, -, -, hunflagged, -⟩ := SyntaxNode.descendantAt?_smallest SyntaxNode.twoLines.root
      (rfl : SyntaxNode.twoLines.Built) (by decide +kernel : 0 < SyntaxNode.twoLines.nodes.size) 0 0
    exact hunflagged (by decide : SyntaxNode.twoLines.map.WellFormed) (by decide +kernel)
      (by decide +kernel) hordered
  · obtain ⟨entries, hgrows, horder⟩ := grows_of_resolve Sample.result_resolve_plain
    have hhalf : Sample.halfTree ∈ Sample.plainForest.order := List.get_mem _ _
    rw [horder, order_forestOf] at hhalf
    obtain ⟨e, he, htree⟩ := List.mem_map.1 hhalf
    have hplain : ∀ c ∈ e.path, c.chain.editor = none :=
      fun c hc => Sample.editor_plainSpec c.chain (hgrows.nested_of_mem e he c hc)
    have hverbatim := Registered.verbatim_of_plain hgrows e he hplain
    have hbuilt := hverbatim.built
    have hparse := hverbatim.parse
    rw [htree] at hbuilt hparse
    obtain ⟨-, -, -, -, -, hapart⟩ := SyntaxNode.descendantAt?_smallest Sample.halfTree.root hbuilt
      (by decide +kernel : 0 < Sample.halfTree.nodes.size) 0 0
    exact hapart Sample.grammar Sample.plainBuffer Sample.plainSpec entries hgrows e he htree hplain
      (Sample.regular_of_grammar hparse) (Sample.ordered_of_grammar hparse)

end SyntaxTree

end Polyglot
