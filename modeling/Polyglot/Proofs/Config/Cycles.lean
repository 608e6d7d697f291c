import Polyglot.Proofs.Config.Marks

/-!
# Which definitions are catalogued

The catalog takes definitions exactly when they are legal, and a cycle that it reports is one
(`ofDefinitions_iff_legal`). Of its three checks the first two say what they look for; the third
searches from one definition after the other, and what is marked after each search is clear of cycles
(`foldlM_searchFrom`), as it is in the search by names that the marks tell.
-/

set_option autoImplicit false

namespace Polyglot

namespace Catalog

variable {definitions : List ChainDefinition}

/-! ## The three checks -/

theorem repeated?_eq_none_iff {taken : List String} :
    repeated? taken definitions = none ↔
      (definitions.map (·.name)).Nodup ∧ ∀ name ∈ definitions.map (·.name), name ∉ taken := by
  induction definitions generalizing taken with
  | nil => simp [repeated?]
  | cons d rest ih =>
    unfold repeated?
    split
    · next htaken =>
      have htaken : d.name ∈ taken := by simpa using htaken
      simp [htaken]
    · next htaken =>
      have htaken : d.name ∉ taken := by simpa using htaken
      rw [ih, List.map_cons, List.nodup_cons, List.forall_mem_cons]
      constructor
      · rintro ⟨hnodup, hrest⟩
        refine ⟨⟨fun hmem => hrest _ hmem List.mem_cons_self, hnodup⟩, htaken, ?_⟩
        exact fun name hname hmem => hrest name hname (List.mem_cons_of_mem _ hmem)
      · rintro ⟨⟨hnot, hnodup⟩, -, hrest⟩
        refine ⟨hnodup, fun name hname hmem => ?_⟩
        rcases List.mem_cons.1 hmem with rfl | hmem
        · exact hnot hname
        · exact hrest name hname hmem

theorem dangling?_eq_none_iff : dangling? definitions = none ↔ ChildrenDefined definitions := by
  simp only [ChildrenDefined, dangling?, List.findSome?_eq_none_iff, Option.map_eq_none_iff,
    List.find?_eq_none, Bool.not_eq_true, Option.isNone_eq_false_iff, find?_isSome_iff]

/-- A search from a definition that has no mark finds that there is no cycle below it, or a closed
path; one that has a mark is known already. -/
theorem searchFrom_eq (hdistinct : (definitions.map (·.name)).Nodup)
    (hdefined : ChildrenDefined definitions) {marks : Marks definitions.length}
    {done : List String} (hknown : MarkSearch.Known definitions marks done)
    (hclear : Search.Clear definitions done) (i : Fin definitions.length) :
    (∃ last names, searchFrom definitions marks i = .ok last ∧
        MarkSearch.Known definitions last names ∧ Search.Clear definitions names ∧
        (∀ name ∈ done, name ∈ names) ∧ (definitions.get i).name ∈ names) ∨
      ∃ path, searchFrom definitions marks i = .error (.cycle path) ∧
        ClosedPath definitions path := by
  cases hmark : marks.get i with
  | some mark =>
    have hdone : marks.get i = some .done := by
      cases mark with
      | visiting => exact absurd hmark (hknown.none i)
      | done => exact hmark
    exact .inl ⟨marks, done, by rw [searchFrom, if_pos (by rw [hmark]; rfl)], hknown, hclear,
      fun _ hname => hname, (hknown.done i).1 hdone⟩
  | none =>
    have hfresh : (definitions.get i).name ∉ done := by
      rw [← hknown.done i, hmark]
      exact fun h => by cases h
    have hagree := (MarkSearch.shows_start hknown hmark).run hdistinct
    rw [searchFrom, if_neg (by simp [hmark])]
    have hmem : (definitions.get i) ∈ definitions := List.getElem_mem i.isLt
    rcases Search.run_start hdistinct hdefined hmem hclear hfresh with
      ⟨names, hrun, hnames, hname, hkept⟩ | ⟨path, hrun, hpath⟩
    · rw [hrun] at hagree
      obtain ⟨last, hlast, hknown⟩ := hagree.of_clear
      exact .inl ⟨last, names, by rw [hlast], hknown, hnames, hkept, hname⟩
    · rw [hrun] at hagree
      exact .inr ⟨path, by rw [hagree.of_closed], hpath⟩

/-- So do searches from some definitions. -/
theorem foldlM_searchFrom (hdistinct : (definitions.map (·.name)).Nodup)
    (hdefined : ChildrenDefined definitions) (l : List (Fin definitions.length))
    {marks : Marks definitions.length} {done : List String}
    (hknown : MarkSearch.Known definitions marks done) (hclear : Search.Clear definitions done) :
    (∃ last names, l.foldlM (searchFrom definitions) marks = .ok last ∧
        Search.Clear definitions names ∧ (∀ name ∈ done, name ∈ names) ∧
        ∀ i ∈ l, (definitions.get i).name ∈ names) ∨
      ∃ path, l.foldlM (searchFrom definitions) marks = .error (.cycle path) ∧
        ClosedPath definitions path := by
  induction l generalizing marks done with
  | nil =>
    exact .inl ⟨marks, done, rfl, hclear, fun _ hname => hname,
      fun _ h => absurd h List.not_mem_nil⟩
  | cons i rest ih =>
    rw [List.foldlM_cons]
    rcases searchFrom_eq hdistinct hdefined hknown hclear i with
      ⟨middle, names, hgo, hknown, hclear, hkept, hname⟩ | ⟨path, hstop, hpath⟩
    · rw [hgo]
      rcases ih hknown hclear with ⟨last, names', hok, hclear, hkept', hin⟩ | hclosed
      · exact .inl ⟨last, names', hok, hclear, fun name h => hkept' name (hkept name h),
          List.forall_mem_cons.2 ⟨hkept' _ hname, hin⟩⟩
      · exact .inr hclosed
    · rw [hstop]
      exact .inr ⟨path, rfl, hpath⟩

/-- The search through all definitions finds that there is no cycle, or a closed path. -/
theorem checkCycles_eq (hdistinct : (definitions.map (·.name)).Nodup)
    (hdefined : ChildrenDefined definitions) :
    (checkCycles definitions = .ok () ∧
        ∀ name, ¬ Relation.TransGen (Refers definitions) name name) ∨
      ∃ path, checkCycles definitions = .error (.cycle path) ∧ ClosedPath definitions path := by
  unfold checkCycles
  rcases foldlM_searchFrom hdistinct hdefined (List.finRange definitions.length)
      (MarkSearch.Known.unmarked definitions) .nil with
    ⟨last, names, hok, hclear, -, hin⟩ | ⟨path, herror, hpath⟩
  · refine .inl ⟨by rw [hok]; rfl, fun name hcycle => ?_⟩
    -- A name on a cycle refers to something, so it is defined.
    obtain ⟨child, ⟨d, hd, rfl, -⟩, -⟩ := Relation.TransGen.head'_iff.1 hcycle
    obtain ⟨k, hk, rfl⟩ := List.getElem_of_mem hd
    exact hclear.acyclic _ (hin ⟨k, hk⟩ (List.mem_finRange _)) hcycle
  · exact .inr ⟨path, by rw [herror]; rfl, hpath⟩

/-- What the catalog makes of definitions: legal ones it keeps as they are, and of the others it
reports a name that is defined twice, a child that is not defined, or a closed path. -/
theorem ofDefinitions_eq (definitions : List ChainDefinition) :
    (ofDefinitions definitions = .ok ⟨definitions⟩ ∧ Legal definitions) ∨
      ∃ e, ofDefinitions definitions = .error e ∧ ¬ Legal definitions ∧
        ∀ path, e = .cycle path → ClosedPath definitions path := by
  unfold ofDefinitions
  split
  · next name hrepeated =>
    refine .inr ⟨_, rfl, fun hlegal => ?_, nofun⟩
    rw [repeated?_eq_none_iff.2 ⟨hlegal.distinct, fun _ _ => List.not_mem_nil⟩] at hrepeated
    cases hrepeated
  · next hrepeated =>
    have hdistinct := (repeated?_eq_none_iff.1 hrepeated).1
    split
    · next child name hdangling =>
      refine .inr ⟨_, rfl, fun hlegal => ?_, nofun⟩
      rw [dangling?_eq_none_iff.2 hlegal.defined] at hdangling
      cases hdangling
    · next hdangling =>
      have hdefined := dangling?_eq_none_iff.1 hdangling
      rcases checkCycles_eq hdistinct hdefined with ⟨hok, hacyclic⟩ | ⟨path, herror, hpath⟩
      · rw [hok]
        exact .inl ⟨rfl, hdistinct, hdefined, hacyclic⟩
      · rw [herror]
        refine .inr ⟨_, rfl, fun hlegal => ?_, ?_⟩
        · obtain ⟨name, hcycle⟩ := hpath.transGen
          exact hlegal.acyclic name hcycle
        · intro p hp
          obtain rfl := CatalogError.cycle.inj hp
          exact hpath

/-- The catalog decides which definitions are legal. Every search for cycles ends, none of its
lookups misses where every child is defined, a definition that closes a cycle is found on the way, and
a cycle that is reported is a closed path. -/
theorem ofDefinitions_iff_legal (definitions : List ChainDefinition) :
    (ofDefinitions definitions = .ok ⟨definitions⟩ ↔ Legal definitions) ∧
    ((∃ c, ofDefinitions definitions = .ok c) ↔ Legal definitions) ∧
    (∀ s : MarkSearch definitions.length, ∃ last,
      Relation.ReflTransGen (MarkSearch.Next definitions) s last ∧
        last.step definitions = .stop (s.run definitions)) ∧
    (ChildrenDefined definitions → ∀ (s : MarkSearch definitions.length) (name : String),
        s.step definitions ≠ .stop (.undefined name)) ∧
    (∀ marks : Marks definitions.length,
        (∀ i : Fin definitions.length, marks.get i ≠ some .visiting) →
        ∀ i s, Relation.ReflTransGen (MarkSearch.Next definitions) (MarkSearch.start marks i) s →
        ∀ j : Fin definitions.length, s.marks.get j = some .visiting →
        ∃ k, s.position? j = some k) ∧
    ∀ path, ofDefinitions definitions = .error (.cycle path) → ClosedPath definitions path := by
  have hlegal : ∀ c, ofDefinitions definitions = .ok c → Legal definitions := by
    intro c hc
    rcases ofDefinitions_eq definitions with ⟨-, hlegal⟩ | ⟨e, he, -⟩
    · exact hlegal
    · rw [he] at hc
      cases hc
  have hok : Legal definitions → ofDefinitions definitions = .ok ⟨definitions⟩ := by
    intro hlegal
    rcases ofDefinitions_eq definitions with ⟨hok, -⟩ | ⟨e, -, hnot, -⟩
    · exact hok
    · exact absurd hlegal hnot
  refine ⟨⟨hlegal _, hok⟩, ⟨fun ⟨c, hc⟩ => hlegal c hc, fun h => ⟨_, hok h⟩⟩,
    MarkSearch.exists_last definitions, MarkSearch.step_ne_undefined, ?_, ?_⟩
  · intro marks hmarks i s hreaches j hj
    exact (MarkSearch.kept_of_reaches hmarks hreaches).exists_position hj
  · intro path hpath
    rcases ofDefinitions_eq definitions with ⟨hok, -⟩ | ⟨e, he, -, hclosed⟩
    · rw [hok] at hpath
      cases hpath
    · rw [he] at hpath
      exact hclosed path (Except.error.inj hpath)

end Catalog

namespace Sample

/-- A style sheet chain that refers to others. -/
def referring (name : String) (children : List String) : ChainDefinition :=
  ⟨name, .css, [], children, none, none⟩

/-- A page and a list share their notes; the page lists the notes twice. -/
def shared : List ChainDefinition :=
  [referring "page" ["note", "list", "note"], referring "list" ["note"], referring "note" []]

/-- A list has items, and an item has lists. -/
def looped : List ChainDefinition :=
  [referring "page" ["note", "list"], referring "note" [], referring "list" ["item"],
    referring "item" ["note", "list"]]

theorem ofDefinitions_shared : Catalog.ofDefinitions shared = .ok ⟨shared⟩ := by
  decide +kernel

end Sample

/-- Shared definitions are legal; of the looped ones the cycle is reported, which does not pass the
page. No step of the search from the page misses a lookup, and the page is found on its way. -/
theorem Catalog.ofDefinitions_looped :
    (Catalog.ofDefinitions Sample.shared = .ok ⟨Sample.shared⟩ ∧ Legal Sample.shared) ∧
    (Catalog.ofDefinitions Sample.looped = .error (.cycle ["list", "item", "list"]) ∧
      ClosedPath Sample.looped ["list", "item", "list"]) ∧
    ChildrenDefined Sample.looped ∧
    (∀ i : Fin 4, (MarkSearch.unmarked 4).get i ≠ some .visiting) ∧
      (MarkSearch.start (MarkSearch.unmarked 4) 0).marks.get 0 = some .visiting ∧
      (∀ name, MarkSearch.step Sample.looped (.start (MarkSearch.unmarked 4) (0 : Fin 4)) ≠
        .stop (.undefined name)) ∧
      ∃ k, (MarkSearch.start (MarkSearch.unmarked 4) (0 : Fin 4)).position? 0 = some k := by
  have hshared := Sample.ofDefinitions_shared
  have hlooped :
      Catalog.ofDefinitions Sample.looped = .error (.cycle ["list", "item", "list"]) := by
    decide +kernel
  have hdefined : ChildrenDefined Sample.looped := by
    unfold ChildrenDefined
    decide +kernel
  have hunmarked : ∀ i : Fin 4, (MarkSearch.unmarked 4).get i ≠ some .visiting := by
    decide
  have hpage : (MarkSearch.start (MarkSearch.unmarked 4) 0).marks.get 0 = some .visiting := by
    decide
  refine ⟨⟨hshared, (Catalog.ofDefinitions_iff_legal Sample.shared).1.1 hshared⟩,
    ⟨hlooped, (Catalog.ofDefinitions_iff_legal Sample.looped).2.2.2.2.2 _ hlooped⟩,
    hdefined, hunmarked, hpage, (Catalog.ofDefinitions_iff_legal Sample.looped).2.2.2.1 hdefined _,
    ?_⟩
  exact (Catalog.ofDefinitions_iff_legal Sample.looped).2.2.2.2.1 _ hunmarked (0 : Fin 4) _ .refl
    (0 : Fin 4) hpage

end Polyglot
