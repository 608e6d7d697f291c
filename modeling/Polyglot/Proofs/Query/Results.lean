import Mathlib.Data.List.Permutation
import Mathlib.Data.Prod.Lex
import Mathlib.Order.WithBot
import Polyglot.Proofs.Chain.Registration
import Polyglot.Proofs.Query.Cache
import Polyglot.Proofs.Syntax.Mirror

/-!
# The order of results

The raw matches whose predicates hold come back one for one, with all of their captures: every node
of the parse is stored under its number, so no capture is lost on the way (`Query.exists_indexOf?`).
What is left is sorted twice, the captures of each match by index and the matches by the key of the
first capture. A sort is stable if, for each key, the elements with that key stand as they did before
(`StableSort`); a merge sort is (`stableSort_mergeSort`).

Over all trees of a language the results are strung together, and nothing but the text of the query
can be at fault (`Forest.queryAll_concat`, `Forest.queryAll_of_compile_error`).
-/

set_option autoImplicit false

namespace Polyglot

/-! ## Stable sorts -/

section StableSort

variable {α κ : Type} [LinearOrder κ]

/-- The list in the order of the keys, with elements of the same key as they stand in it. -/
structure StableSort (key : α → κ) (l sorted : List α) : Prop where
  perm : sorted.Perm l
  ordered : sorted.Pairwise fun a b => key a ≤ key b
  stable : ∀ k, (sorted.filter fun a => key a = k) = l.filter fun a => key a = k

theorem stableSort_mergeSort (key : α → κ) (l : List α) :
    StableSort key l (l.mergeSort fun a b => key a ≤ key b) := by
  have htrans : ∀ a b c : α, decide (key a ≤ key b) = true → decide (key b ≤ key c) = true →
      decide (key a ≤ key c) = true := by
    simpa using fun a b c => le_trans
  have htotal : ∀ a b : α, (decide (key a ≤ key b) || decide (key b ≤ key a)) = true := by
    simpa using fun a b => le_total (key a) (key b)
  have hperm := List.mergeSort_perm l fun a b => decide (key a ≤ key b)
  refine ⟨hperm, (List.pairwise_mergeSort htrans htotal l).imp of_decide_eq_true, fun k => ?_⟩
  -- What has the key is in order, so the sort leaves it as it is, and there is no more of it.
  have hequal : (l.filter fun a => key a = k).Pairwise fun a b =>
      decide (key a ≤ key b) = true := by
    refine List.pairwise_of_forall_mem_list fun a ha b hb => decide_eq_true (le_of_eq ?_)
    exact (of_decide_eq_true (List.mem_filter.1 ha).2).trans
      (of_decide_eq_true (List.mem_filter.1 hb).2).symm
  have hkept := (List.sublist_mergeSort htrans htotal hequal List.filter_sublist).filter
    fun a => key a = k
  rw [List.filter_filter] at hkept
  simp only [Bool.and_self] at hkept
  exact (hkept.eq_of_length (hperm.filter _).length_eq.symm).symm

end StableSort

/-! ## What a result is made of -/

/-- The matches whose predicates hold, as they are found. -/
def Query.surviving (q : Query) (t : SyntaxTree) : List RawMatch :=
  (q.rawMatches t).filter (q.admits t)

/-- What the match captures are nodes of the parse, under names that the query declares. -/
def RawMatch.Known (q : Query) (t : SyntaxTree) (raw : RawMatch) : Prop :=
  ∀ c ∈ raw.captures, c.1 < q.captureNames.length ∧ c.2 ∈ t.parse.root.preorder.map (·.id)

/-- The capture of a raw one: the name that the query declares at its index, and the node of the tree
at the place in pre-order where the parse has the captured number. -/
structure Capture.Locates (q : Query) (t : SyntaxTree) (raw : Nat × Nat) (k : Capture) : Prop where
  index : k.index = raw.1
  name : q.captureNames[raw.1]? = some k.name
  tree : k.node.tree = t
  number : (t.parse.root.preorder.map (·.id))[k.node.id]? = some raw.2

/-- The match of a raw one: its pattern, and all of its captures, sorted by index. -/
structure QueryMatch.Locates (q : Query) (t : SyntaxTree) (raw : RawMatch) (m : QueryMatch) :
    Prop where
  pattern : m.pattern = raw.pattern
  captures : ∃ located, List.Forall₂ (Capture.Locates q t) raw.captures located ∧
    StableSort Capture.index located m.captures

/-- What results are sorted by: the start of the first capture, then the pattern. Without captures
a match starts behind everything. -/
def QueryMatch.key (m : QueryMatch) : WithTop Nat ×ₗ Nat :=
  toLex (m.start?.elim ⊤ WithTop.some, m.pattern)

/-- The results in a tree: one for each match that survives, sorted by key, and those without
captures last. -/
structure Query.Arranges (q : Query) (t : SyntaxTree) (found : List QueryMatch) : Prop where
  matched : ∃ located, List.Forall₂ (QueryMatch.Locates q t) (q.surviving t) located ∧
    StableSort QueryMatch.key located found
  last : found.Pairwise fun m k => m.captures = [] → k.captures = []

namespace QueryMatch

variable {m k : QueryMatch}

theorem notAfter_eq (m k : QueryMatch) : m.notAfter k = decide (m.key ≤ k.key) := by
  rw [Bool.eq_iff_iff, decide_eq_true_eq, key, key, Prod.Lex.toLex_le_toLex]
  unfold notAfter
  cases hm : m.start? with
  | none =>
    cases hk : k.start? <;> simp
  | some a =>
    cases hk : k.start? <;> simp

theorem start?_eq_none_iff : m.start? = none ↔ m.captures = [] := by
  simp [start?]

/-- What is not before a match without captures has none. -/
theorem captures_eq_nil_of_key_le (h : m.key ≤ k.key) (hm : m.captures = []) : k.captures = [] := by
  rw [← start?_eq_none_iff] at hm ⊢
  rw [key, key, Prod.Lex.toLex_le_toLex, hm] at h
  cases hk : k.start? with
  | none => rfl
  | some s => simp [hk] at h

end QueryMatch

/-! ## No capture is lost -/

/-- A search that succeeds everywhere gives a result for each element. -/
theorem forall₂_filterMap {α β : Type} {R : α → β → Prop} {f : α → Option β} {l : List α}
    (h : ∀ a ∈ l, ∃ b, f a = some b ∧ R a b) : List.Forall₂ R l (l.filterMap f) := by
  induction l with
  | nil => exact .nil
  | cons a l ih =>
    obtain ⟨⟨b, hb, hab⟩, hrest⟩ := List.forall_mem_cons.1 h
    rw [List.filterMap_cons_some hb]
    exact .cons hab (ih hrest)

namespace Query

variable {q : Query} {t : SyntaxTree} {raw : RawMatch}

/-- A number of the parse is found where the parse has it. -/
theorem exists_indexOf? (h : t.Built) (hids : (t.parse.root.preorder.map (·.id)).Nodup) {n : Nat}
    (hn : n ∈ t.parse.root.preorder.map (·.id)) :
    ∃ id, t.indexOf? n = some id ∧ (t.parse.root.preorder.map (·.id))[id]? = some n := by
  obtain ⟨id, hid⟩ := List.mem_iff_getElem?.1 hn
  refine ⟨id, ?_, hid⟩
  rw [← h.labels, List.map_map, List.getElem?_map, Option.map_eq_some_iff] at hid
  obtain ⟨node, hnode, rfl⟩ := hid
  obtain ⟨hlt, rfl⟩ := Array.getElem?_eq_some_iff.1 (Array.getElem?_toList ▸ hnode)
  have hlookup := h.indexOf?_parseId hids hlt
  simpa [SyntaxTree.node, hlt, Node.label] using hlookup

theorem locates_locate (h : t.Built) (hids : (t.parse.root.preorder.map (·.id)).Nodup)
    (hknown : raw.Known q t) : QueryMatch.Locates q t raw (q.locate t raw) := by
  refine ⟨rfl, _, forall₂_filterMap fun c hc => ?_, stableSort_mergeSort _ _⟩
  obtain ⟨hname, hnumber⟩ := hknown c hc
  obtain ⟨id, hindex, hid⟩ := exists_indexOf? h hids hnumber
  refine ⟨⟨q.captureNames.getD c.1 "", c.1, ⟨t, id⟩⟩, by rw [locateCapture?, hindex]; rfl, ?_⟩
  exact ⟨rfl, by simp [hname], rfl, hid⟩

theorem arranges_results (h : t.Built) (hids : (t.parse.root.preorder.map (·.id)).Nodup)
    (hknown : ∀ raw ∈ q.surviving t, raw.Known q t) : q.Arranges t (q.results t) := by
  have hsort : StableSort QueryMatch.key ((q.surviving t).map (q.locate t)) (q.results t) := by
    have hnotAfter : QueryMatch.notAfter = fun m k => decide (m.key ≤ k.key) :=
      funext₂ QueryMatch.notAfter_eq
    rw [results, hnotAfter]
    exact stableSort_mergeSort _ _
  refine ⟨⟨_, ?_, hsort⟩, hsort.ordered.imp QueryMatch.captures_eq_nil_of_key_le⟩
  rw [List.forall₂_map_right_iff, List.forall₂_same]
  exact fun raw hraw => locates_locate h hids (hknown raw hraw)

end Query

/-! ## All trees of a language -/

namespace Forest

variable {f : Forest} {compiler : QueryCompiler} {cache : QueryCache}

/-- The trees of a language stand in the order of their occurrences. -/
theorem InStep.occurrences_eq_range (hf : f.InStep) (l : Language) :
    (f.trees l).map (·.occurrence) = List.range (f.occurrences l) := by
  apply List.ext_getElem
  · rw [List.length_map, List.length_range, occurrences]
  · intro i hi _
    rw [List.length_map] at hi
    rw [List.getElem_map, List.getElem_range]
    exact hf.occurrence l i _ (List.getElem?_eq_getElem hi)

/-- A query of all trees of a language strings the results in them together. -/
theorem queryAll_concat (hf : f.InStep) (hcache : cache.Reachable compiler) {l : Language}
    {text : String} {q : Query} (hq : compiler.compile l text = .ok q) :
    ∃ lists, List.Forall₂ (fun t found => QueryEngine.findAll ⟨l, q⟩ t = .ok found) (f.trees l)
      lists ∧ (f.queryAll compiler l text cache).1 = .ok lists.flatten := by
  have hlanguage : ∀ t ∈ f.trees l, t.language = l := fun t ht => hf.language_of_mem ht
  refine ⟨(f.trees l).map q.results, ?_, ?_⟩
  · rw [List.forall₂_map_right_iff, List.forall₂_same]
    exact fun t ht => if_pos (hlanguage t ht)
  · rw [(answers_queryAll f compiler l text cache hcache).1, hq]
    exact findInAll_of_language hlanguage

/-- It fails only where the text does not compile. -/
theorem queryAll_of_compile_error (hcache : cache.Reachable compiler) {l : Language} {text : String}
    {e : SyntaxError} (he : compiler.compile l text = .error e) :
    (f.queryAll compiler l text cache).1 = .error e := by
  rw [(answers_queryAll f compiler l text cache hcache).1, he]
  rfl

end Forest

/-- In a tree of its language, whose nodes the parse numbers differently, a query finds every match
that survives its predicates, with all that it captures, in the order of results. Asked of a whole
forest it finds the matches of each tree of the language, by occurrence, whatever a cache held before,
and fails only where its text does not compile. -/
theorem query_results_arranged :
    (∀ (e : QueryEngine) (t : SyntaxTree), t.Built → (t.parse.root.preorder.map (·.id)).Nodup →
      t.language = e.language → (∀ raw ∈ e.query.surviving t, raw.Known e.query t) →
      ∃ found, e.findAll t = .ok found ∧ e.query.Arranges t found) ∧
    ∀ (f : Forest) (compiler : QueryCompiler) (cache : QueryCache) (l : Language) (text : String),
      f.InStep → cache.Reachable compiler →
      (f.trees l).map (·.occurrence) = List.range (f.occurrences l) ∧
      (∀ q, compiler.compile l text = .ok q → ∃ lists,
        List.Forall₂ (fun t found => QueryEngine.findAll ⟨l, q⟩ t = .ok found) (f.trees l) lists ∧
        (f.queryAll compiler l text cache).1 = .ok lists.flatten) ∧
      ∀ e, compiler.compile l text = .error e →
        (f.queryAll compiler l text cache).1 = .error e := by
  constructor
  · intro e t h hids hlanguage hknown
    exact ⟨e.query.results t, if_pos hlanguage, Query.arranges_results h hids hknown⟩
  · intro f compiler cache l text hf hcache
    exact ⟨hf.occurrences_eq_range l, fun q hq => Forest.queryAll_concat hf hcache hq,
      fun e he => Forest.queryAll_of_compile_error hcache he⟩

/-- A query of the measured line whose matches are found out of order: the second word, a match without
captures, the first word in front of its letters, and the first word again by another pattern. -/
def measuredQuery : Query :=
  ⟨["letter", "word"], [[], []], fun _ =>
    [⟨1, [(1, 15)]⟩, ⟨0, []⟩, ⟨1, [(1, 11), (0, 12), (0, 13)]⟩, ⟨0, [(1, 11)]⟩]⟩

theorem query_results_arranged_measured :
    (SyntaxTree.measured.Built ∧ (SyntaxTree.measured.parse.root.preorder.map (·.id)).Nodup ∧
      ∀ raw ∈ measuredQuery.surviving SyntaxTree.measured,
        raw.Known measuredQuery SyntaxTree.measured) ∧
    ∃ found, QueryEngine.findAll ⟨.html, measuredQuery⟩ SyntaxTree.measured = .ok found ∧
      measuredQuery.Arranges SyntaxTree.measured found ∧
      (((Forest.empty SyntaxTree.measured.source).insert SyntaxTree.measured).queryAll
        (fun _ _ => .ok measuredQuery) .html "(word) @word" QueryCache.empty).1 = .ok found ∧
      found.map (fun m => (m.pattern, m.captures.map (·.node.id))) =
        [(0, [1]), (1, [2, 3, 1]), (1, [5]), (0, [])] := by
  have hbuilt : SyntaxTree.measured.Built := rfl
  have hids : (SyntaxTree.measured.parse.root.preorder.map (·.id)).Nodup := by decide +kernel
  have hknown : ∀ raw ∈ measuredQuery.surviving SyntaxTree.measured,
      raw.Known measuredQuery SyntaxTree.measured := by
    intro raw hraw
    have hmem := (List.mem_filter.1 hraw).1
    simp only [measuredQuery, List.mem_cons, List.not_mem_nil, or_false] at hmem
    rcases hmem with rfl | rfl | rfl | rfl <;> unfold RawMatch.Known <;> decide +kernel
  obtain ⟨found, hfound, harranges⟩ :=
    query_results_arranged.1 ⟨.html, measuredQuery⟩ SyntaxTree.measured hbuilt hids rfl hknown
  have hforest : ((Forest.empty SyntaxTree.measured.source).insert SyntaxTree.measured).InStep :=
    (Forest.inStep_empty _).insert rfl
  obtain ⟨-, hconcat, -⟩ := query_results_arranged.2 _ (fun _ _ => .ok measuredQuery)
    QueryCache.empty .html "(word) @word" hforest .empty
  obtain ⟨lists, hlists, hall⟩ := hconcat measuredQuery rfl
  obtain ⟨only, rest, honly, hrest, rfl⟩ := List.forall₂_cons_left_iff.1 hlists
  obtain rfl := List.forall₂_nil_left_iff.1 hrest
  obtain rfl := Except.ok.inj (honly.symm.trans hfound)
  refine ⟨⟨hbuilt, hids, hknown⟩, only, hfound, harranges, by simpa using hall, ?_⟩
  have hresults : measuredQuery.results SyntaxTree.measured = only :=
    Except.ok.inj ((if_pos rfl).symm.trans hfound)
  rw [← hresults]
  cbv

end Polyglot
