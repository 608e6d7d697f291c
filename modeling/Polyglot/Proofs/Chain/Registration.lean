import Mathlib.Algebra.GroupWithZero.Nat
import Mathlib.Data.List.Nodup
import Polyglot.Proofs.Chain.Maps

/-!
# What a forest keeps in step

A forest holds its trees twice, in the order in which they were found and grouped by language, and
each tree carries the number of its occurrence. `Forest.InStep` says how these fit together; an
empty forest is in step, and so is one with one tree more that carries the number of trees of its
language (`InStep.insert`). The resolver reads that number before it parses and inserts before it
goes on, so every step of a resolution is such an insertion (`inStep_of_grows`).
-/

set_option autoImplicit false

namespace Polyglot

namespace Forest

variable {f : Forest} {t : SyntaxTree} {l : Language}

/-! ## Inserting a tree -/

theorem lookup_addTo (t : SyntaxTree) (l : Language) (groups : List (Language × List SyntaxTree)) :
    (addTo t groups).lookup l =
      if t.language = l then some ((groups.lookup l).getD [] ++ [t]) else groups.lookup l := by
  induction groups with
  | nil =>
    by_cases h : t.language = l
    · subst h
      simp [addTo]
    · have h' : (l == t.language) = false := by simpa using fun e => h e.symm
      simp [addTo, List.lookup_cons, h, h']
  | cons g groups ih =>
    obtain ⟨m, trees⟩ := g
    unfold addTo
    by_cases hm : m = t.language
    · subst hm
      by_cases h : t.language = l
      · subst h
        simp
      · have h' : (l == t.language) = false := by simpa using fun e => h e.symm
        simp [List.lookup_cons, h, h']
    · rw [if_neg hm]
      by_cases hl : l = m
      · subst hl
        have h : ¬t.language = l := fun e => hm e.symm
        simp [h]
      · have hl' : (l == m) = false := by simpa using hl
        simp only [List.lookup_cons, hl', ih]

@[simp] theorem order_insert (f : Forest) (t : SyntaxTree) :
    (f.insert t).order = f.order ++ [t] := rfl

theorem trees_insert (f : Forest) (t : SyntaxTree) (l : Language) :
    (f.insert t).trees l = if t.language = l then f.trees l ++ [t] else f.trees l := by
  unfold trees insert
  simp only [lookup_addTo]
  split <;> rfl

/-! ## The invariant -/

/-- What comes last is new, or dropped as a duplicate. -/
theorem eraseDups_concat (languages : List Language) (l : Language) :
    (languages ++ [l]).eraseDups =
      if l ∈ languages then languages.eraseDups else languages.eraseDups ++ [l] := by
  rw [List.eraseDups_append, List.removeAll]
  by_cases h : l ∈ languages
  · rw [if_pos h, List.filter_cons_of_neg (by simpa using h), List.filter_nil, List.eraseDups_nil,
      List.append_nil]
  · rw [if_neg h, List.filter_cons_of_pos (by simpa using h), List.filter_nil, List.eraseDups_cons,
      List.filter_nil, List.eraseDups_nil]

/-- How the parts of a forest fit together. -/
structure InStep (f : Forest) : Prop where
  trees : ∀ l, f.trees l = f.order.filter fun t => t.language = l
  occurrence : ∀ (l : Language) (i : Nat) (t : SyntaxTree),
    (f.trees l)[i]? = some t → t.occurrence = i
  grouped : ∀ l, f.groups.lookup l = none ↔ l ∉ f.languages
  languages : f.languages = (f.order.map (·.language)).eraseDups
  distinct : f.languages.Nodup

theorem inStep_empty (source : Source) : (empty source).InStep := by
  constructor <;> simp [empty, Forest.trees]

/-- The trees of a language are of that language. -/
theorem InStep.language_of_mem (h : f.InStep) {l : Language} {t : SyntaxTree}
    (ht : t ∈ f.trees l) : t.language = l := by
  rw [h.trees] at ht
  simpa using (List.mem_filter.1 ht).2

/-- A forest in step lists the language of one tree more unless it is listed already. -/
theorem InStep.languages_insert (h : f.InStep) (t : SyntaxTree) :
    (f.insert t).languages =
      if t.language ∈ f.languages then f.languages else f.languages ++ [t.language] := by
  by_cases hl : t.language ∈ f.languages
  · have hgroup : f.groups.lookup t.language ≠ none := fun e => (h.grouped _).1 e hl
    simp [insert, hl, hgroup]
  · have hgroup : f.groups.lookup t.language = none := (h.grouped _).2 hl
    simp [insert, hl, hgroup]

/-- A tree that carries the number of trees of its language keeps a forest in step. -/
theorem InStep.insert (h : f.InStep) (ht : t.occurrence = f.occurrences t.language) :
    (f.insert t).InStep := by
  constructor
  · intro l
    rw [trees_insert]
    by_cases hl : t.language = l <;> simp [h.trees, hl]
  · intro l i u hu
    rw [trees_insert] at hu
    split at hu
    · next hl =>
      subst hl
      rw [List.getElem?_append] at hu
      split at hu
      · exact h.occurrence _ i u hu
      · next hi =>
        obtain ⟨hi', rfl⟩ := List.getElem?_eq_some_iff.1 hu
        simp only [List.length_singleton, List.getElem_singleton] at hi' ⊢
        rw [ht]
        unfold occurrences
        omega
    · exact h.occurrence l i u hu
  · intro l
    rw [h.languages_insert, show (f.insert t).groups = addTo t f.groups from rfl, lookup_addTo]
    by_cases hl : t.language = l
    · subst hl
      simp only [if_true, reduceCtorEq, false_iff, not_not]
      split
      · assumption
      · simp
    · have hne : l ≠ t.language := fun e => hl e.symm
      rw [if_neg hl, h.grouped]
      split
      · rfl
      · simp [hne]
  · rw [h.languages_insert, order_insert, List.map_append, List.map_singleton, eraseDups_concat]
    simp only [h.languages, List.mem_eraseDups]
  · rw [h.languages_insert]
    split
    · exact h.distinct
    · next hnew => simpa using h.distinct.concat hnew

/-- The languages of a forest are those of its trees. -/
theorem InStep.mem_languages (h : f.InStep) : l ∈ f.languages ↔ ∃ t ∈ f.order, t.language = l := by
  rw [h.languages, List.mem_eraseDups, List.mem_map]

/-- The members of a list, each with the number of times it occurs, make up the list. -/
theorem sum_count_eraseDups (l : List Language) : (l.eraseDups.map l.count).sum = l.length := by
  -- The induction is on the length, since dropping a language is not going on with the tail.
  generalize hn : l.length = n
  induction n using Nat.strongRecOn generalizing l with
  | ind n ih =>
    cases l with
    | nil => simpa using hn
    | cons a l =>
      let others := l.filter fun b => !b == a
      have hothers : others.length + l.count a = l.length := by
        rw [List.count, List.countP_eq_length_filter, Nat.add_comm]
        exact (List.length_eq_length_filter_add _).symm
      have hrest : others.eraseDups.map (a :: l).count = others.eraseDups.map others.count := by
        apply List.map_congr_left
        intro b hb
        rw [List.mem_eraseDups, List.mem_filter] at hb
        have hne : b ≠ a := by simpa using hb.2
        rw [List.count_cons_of_ne hne.symm]
        exact (List.count_filter (by simpa using hne)).symm
      rw [List.eraseDups_cons, List.map_cons, List.sum_cons, List.count_cons_self, hrest,
        ih others.length (by rw [← hn, List.length_cons]; omega) others rfl]
      rw [List.length_cons] at hn
      omega

/-- The occurrences of all languages make up the forest. -/
theorem InStep.size (h : f.InStep) : f.size = (f.languages.map f.occurrences).sum := by
  have hcount : f.occurrences = (f.order.map (·.language)).count := by
    funext l
    unfold occurrences
    rw [h.trees, ← List.countP_eq_length_filter, List.count, List.countP_map]
    congr 1
  rw [hcount, h.languages, sum_count_eraseDups, List.length_map]
  rfl

/-- A language has a tree exactly when its first tree can be looked up. -/
theorem hasSyntax_iff : f.hasSyntax l = true ↔ ∃ t, f.getSyntax l = .ok t := by
  unfold hasSyntax occurrences getSyntax
  cases f.trees l with
  | nil => simp
  | cons t rest => simp

/-- The tree that is looked up is the first of its language. -/
theorem InStep.getSyntax_iff (h : f.InStep) :
    f.getSyntax l = .ok t ↔ f.order.find? (fun t => t.language = l) = some t := by
  unfold getSyntax
  rw [h.trees, List.head?_filter]
  cases f.order.find? (fun t => t.language = l) with
  | none => simp
  | some first => simp

end Forest

/-! ## The languages of a chain -/

namespace ChainSpec

mutual

theorem mem_addLanguages {l : Language} : ∀ (s : ChainSpec) (found : List Language),
    l ∈ addLanguages found s ↔ l ∈ found ∨ s.entry = l ∨ ∃ t ∈ s.nested, t.entry = l
  | .mk entry children extractor editor, found => by
    have hfound : l ∈ (if found.contains entry then found else found ++ [entry]) ↔
        l ∈ found ∨ entry = l := by
      split
      · next h =>
        have h : entry ∈ found := by simpa using h
        constructor
        · exact .inl
        · rintro (hl | rfl)
          · exact hl
          · exact h
      · simp [eq_comm]
    rw [addLanguages, mem_addLanguagesOf children, hfound, or_assoc]
    rfl

theorem mem_addLanguagesOf {l : Language} : ∀ (children : List ChainSpec) (found : List Language),
    l ∈ addLanguagesOf found children ↔ l ∈ found ∨ ∃ t ∈ nestedAmong children, t.entry = l
  | [], found => by simp [addLanguagesOf, nestedAmong]
  | s :: rest, found => by
    rw [addLanguagesOf, mem_addLanguagesOf rest, mem_addLanguages s]
    simp only [nestedAmong, List.mem_cons, List.mem_append, or_and_right, exists_or,
      exists_eq_left, or_assoc]

end

/-- The languages of a chain are its own and those of the chains nested in it. -/
theorem mem_languages {s : ChainSpec} {l : Language} :
    l ∈ s.languages ↔ s.entry = l ∨ ∃ t ∈ s.nested, t.entry = l := by
  simp [languages, mem_addLanguages]

end ChainSpec

/-! ## Resolutions -/

section Resolutions

variable {grammar : Grammar} {buffer : Bytes} {spec : ChainSpec} {entries : List Registered}

/-- A region's tree is of the language and the occurrence that it was parsed for. -/
theorem ChainSpec.labels_of_parseRegion {language : Language} {occurrence : Nat} {bytes : Bytes}
    {map : OffsetMap} {source : Source} {tree : SyntaxTree}
    (h : ChainSpec.parseRegion grammar language occurrence bytes map source = .ok tree) :
    tree.language = language ∧ tree.occurrence = occurrence := by
  obtain ⟨parse, -, rfl⟩ := ChainSpec.parseRegion_ok h
  exact ⟨rfl, rfl⟩

theorem Cut.Gives.labels {occurrence : Nat} {c : Cut} {parent tree : SyntaxTree}
    (h : c.Gives grammar occurrence parent tree) :
    tree.language = c.chain.entry ∧ tree.occurrence = occurrence := by
  obtain ⟨edit, -, htree⟩ := ChainSpec.resolveRange_ok h.resolved
  exact ChainSpec.labels_of_parseRegion htree

/-- Every step of a resolution keeps the forest in step. -/
theorem inStep_of_grows (h : Grows grammar buffer spec entries) :
    (forestOf buffer entries).InStep := by
  induction h with
  | root parsed =>
    have hlabels := ChainSpec.labels_of_parseRegion parsed
    exact (Forest.inStep_empty (Source.ofBytes buffer)).insert hlabels.2
  | @cut entries parent c tree before registered child gives ih =>
    rw [forestOf_concat]
    apply ih.insert
    rw [gives.labels.1, gives.labels.2]

theorem inStep_of_resolve {forest : Forest}
    (h : (ChainSpec.resolve grammar buffer spec).result = .ok forest) : forest.InStep := by
  obtain ⟨entries, hgrows, rfl⟩ := grows_of_resolve h
  exact inStep_of_grows hgrows

/-- The tree of the whole buffer comes first. -/
theorem Grows.head (h : Grows grammar buffer spec entries) :
    ∃ root rest, entries = ⟨[], root⟩ :: rest ∧
      ChainSpec.parseRegion grammar spec.entry 0 buffer (OffsetMap.identity buffer.length)
        (Source.ofBytes buffer) = .ok root := by
  induction h with
  | @root tree parsed => exact ⟨tree, [], rfl, parsed⟩
  | cut before registered child gives ih =>
    obtain ⟨root, rest, rfl, hroot⟩ := ih
    exact ⟨root, rest ++ [_], rfl, hroot⟩

end Resolutions

/-- What a forest keeps in step: its trees in the order in which they are found, which starts with
that of the whole buffer, its groups by language, the occurrences that the trees carry, and its
languages in the order of their first trees. -/
theorem registration_of_resolve {grammar : Grammar} {buffer : Bytes} {spec : ChainSpec}
    {forest : Forest} (h : (ChainSpec.resolve grammar buffer spec).result = .ok forest) :
    (∃ parse rest, grammar spec.entry buffer = .ok parse ∧
      forest.order = SyntaxTree.build spec.entry 0 buffer parse (OffsetMap.identity buffer.length)
        (Source.ofBytes buffer) :: rest) ∧
    (∀ l, forest.trees l = forest.order.filter (fun t => t.language = l) ∧
      ∀ (i : Nat) (hi : i < (forest.trees l).length),
        ((forest.trees l).get ⟨i, hi⟩).occurrence = i) ∧
    (forest.languages = (forest.order.map (·.language)).eraseDups ∧ forest.languages.Nodup ∧
      ∀ l ∈ forest.languages, l ∈ spec.languages) ∧
    forest.size = (forest.languages.map forest.occurrences).sum ∧
    ∀ l, (forest.hasSyntax l = true ↔ ∃ t, forest.getSyntax l = .ok t) ∧
      ∀ t, forest.getSyntax l = .ok t ↔
        forest.order.find? (fun t => t.language = l) = some t := by
  obtain ⟨entries, hgrows, rfl⟩ := grows_of_resolve h
  have hstep := inStep_of_grows hgrows
  have hlanguages : ∀ t ∈ (forestOf buffer entries).order, t.language ∈ spec.languages := by
    refine forall_order_of_resolve h (fun tree hroot => ?_) fun c _ _ _ tree hnested hgives _ => ?_
    · rw [(ChainSpec.labels_of_parseRegion hroot).1]
      exact ChainSpec.mem_languages.2 (.inl rfl)
    · rw [hgives.labels.1]
      exact ChainSpec.mem_languages.2 (.inr ⟨c.chain, hnested, rfl⟩)
  refine ⟨?_, ?_, ⟨hstep.languages, hstep.distinct, ?_⟩, hstep.size, ?_⟩
  · obtain ⟨root, rest, rfl, hroot⟩ := hgrows.head
    obtain ⟨parse, hparse, rfl⟩ := ChainSpec.parseRegion_ok hroot
    exact ⟨parse, rest.map (·.tree), hparse, order_forestOf buffer _⟩
  · intro l
    refine ⟨hstep.trees l, fun i hi => ?_⟩
    apply hstep.occurrence l i
    exact List.getElem?_eq_getElem hi
  · intro l hl
    obtain ⟨t, ht, rfl⟩ := hstep.mem_languages.1 hl
    exact hlanguages t ht
  · intro l
    exact ⟨Forest.hasSyntax_iff, fun t => hstep.getSyntax_iff⟩

namespace Sample

/-- A style sheet in the first byte. -/
def sheet : ChainSpec :=
  .mk .css [] (some ⟨"first", fun _ _ => [⟨0, 1⟩]⟩) none

/-- A page with two pages in it that hold a style sheet, and a style sheet behind them. -/
def pages : ChainSpec :=
  .mk .html
    [.mk .html [sheet] (some ⟨"pages", fun _ _ => [⟨0, 2⟩, ⟨2, 4⟩]⟩) none,
      .mk .css [] (some ⟨"last", fun _ _ => [⟨4, 5⟩]⟩) none] none none

/-- The trees of the page, of each page in it with its style sheet, and of the last style sheet. -/
def pagesForest : Forest :=
  resolved buffer pages

theorem result_resolve_pages :
    (ChainSpec.resolve grammar buffer pages).result = .ok pagesForest := rfl

end Sample

/-- Pages within a page: three trees of one language and three of another, which two chains
find. -/
theorem registration_sample :
    ((ChainSpec.resolve Sample.grammar Sample.buffer Sample.pages).result =
        .ok Sample.pagesForest ∧
      Sample.pagesForest.order.map (·.language) = [.html, .html, .css, .html, .css, .css]) ∧
    Sample.pagesForest.languages = [.html, .css] ∧
    Sample.pagesForest.trees .css =
      Sample.pagesForest.order.filter (fun t => t.language = .css) ∧
    ∀ l (i : Nat) (hi : i < (Sample.pagesForest.trees l).length),
      ((Sample.pagesForest.trees l).get ⟨i, hi⟩).occurrence = i := by
  have hrun := Sample.result_resolve_pages
  have horder : Sample.pagesForest.order.map (·.language) =
      [.html, .html, .css, .html, .css, .css] := by decide +kernel
  obtain ⟨-, htrees, ⟨hlanguages, -, -⟩, -, -⟩ := registration_of_resolve hrun
  refine ⟨⟨hrun, horder⟩, ?_, (htrees .css).1, fun l => (htrees l).2⟩
  rw [hlanguages, horder]
  decide +kernel

end Polyglot
