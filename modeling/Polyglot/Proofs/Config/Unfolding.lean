import Mathlib.Data.Finset.Card
import Polyglot.Proofs.Config.Cycles

/-!
# Unfolding a chain from its name

A chain that is unfolded from its name is the tree of the paths that lead from the name along
references: shared definitions stand in it once for each path (`Unfolds`). `Meets` lists the
definitions in the order in which unfolding comes to them. What the catalog makes of a name is read
off that list: where a definition in it has no extractor, the first one is reported, and otherwise
there is a chain (`unfoldAll_of_meets`, `unfoldAll_of_unfolds`).

Fuel stands for the recursion over names. Legal definitions have less below a child than below the
name that refers to it (`card_descendants_lt_of_refers`), so as much fuel as there are definitions
is never used up.
-/

set_option autoImplicit false

namespace Polyglot

/-- The chains of some names, unfolded: each has the entry, the extractor and the editor of the
definition of its name, and for each child of the definition one child, in the order listed. -/
inductive Unfolds (definitions : List ChainDefinition) : List String → List ChainSpec → Prop where
  | nil : Unfolds definitions [] []
  | cons {name : String} {names : List String} {d : ChainDefinition} {x : ExtractorDef}
      {children rest : List ChainSpec} (found : ChainDefinition.find? definitions name = some d)
      (extracted : d.extract = some x) (below : Unfolds definitions d.children children)
      (behind : Unfolds definitions names rest) :
      Unfolds definitions (name :: names)
        (.mk d.entry children (some x.build) (d.edit.map (·.build)) :: rest)

/-- The chain is the definition unfolded, with no extractor of its own. -/
def ChainDefinition.UnfoldsTo (definitions : List ChainDefinition) (d : ChainDefinition)
    (s : ChainSpec) : Prop :=
  ∃ children, Unfolds definitions d.children children ∧
    s = .mk d.entry children none (d.edit.map (·.build))

/-- The definitions that are met on the way through some names: that of the first name, those met
on the way through its children, and those met on the way through the other names. -/
inductive Meets (definitions : List ChainDefinition) :
    List String → List ChainDefinition → Prop where
  | nil : Meets definitions [] []
  | cons {name : String} {names : List String} {d : ChainDefinition}
      {met others : List ChainDefinition}
      (found : ChainDefinition.find? definitions name = some d)
      (below : Meets definitions d.children met) (behind : Meets definitions names others) :
      Meets definitions (name :: names) (d :: (met ++ others))

section Graph

variable {definitions : List ChainDefinition} {d e : ChainDefinition} {name child : String}
  {names : List String} {met : List ChainDefinition} {specs : List ChainSpec}

/-! ## What is below a name -/

open Classical in
/-- The names that a name leads to along references. -/
noncomputable def descendants (definitions : List ChainDefinition) (name : String) :
    Finset String :=
  (definitions.map (·.name)).toFinset.filter fun below =>
    Relation.TransGen (Refers definitions) name below

theorem mem_descendants {below : String} :
    below ∈ descendants definitions name ↔
      (∃ e ∈ definitions, e.name = below) ∧ Relation.TransGen (Refers definitions) name below := by
  simp [descendants]

/-- There is less below a child than below what refers to it. -/
theorem card_descendants_lt_of_refers (hlegal : Legal definitions)
    (h : Refers definitions name child) :
    (descendants definitions child).card < (descendants definitions name).card := by
  have hdefined : ∃ e ∈ definitions, e.name = child := by
    obtain ⟨d, hd, -, hchild⟩ := h
    exact hlegal.defined d hd child hchild
  apply Finset.card_lt_card
  rw [Finset.ssubset_iff_of_subset]
  · refine ⟨child, mem_descendants.2 ⟨hdefined, .single h⟩, ?_⟩
    intro hmem
    exact hlegal.acyclic child (mem_descendants.1 hmem).2
  · intro below hmem
    obtain ⟨hbelow, hpath⟩ := mem_descendants.1 hmem
    exact mem_descendants.2 ⟨hbelow, .head h hpath⟩

/-- There is less below a definition than there are definitions. -/
theorem card_descendants_lt (hlegal : Legal definitions) (hd : d ∈ definitions) :
    (descendants definitions d.name).card < definitions.length := by
  have hlt : (descendants definitions d.name).card < (definitions.map (·.name)).toFinset.card := by
    apply Finset.card_lt_card
    rw [Finset.ssubset_iff_of_subset]
    · refine ⟨d.name, List.mem_toFinset.2 (List.mem_map.2 ⟨d, hd, rfl⟩), ?_⟩
      intro hmem
      exact hlegal.acyclic d.name (mem_descendants.1 hmem).2
    · intro below hmem
      exact List.mem_toFinset.2 (List.mem_map.2 (mem_descendants.1 hmem).1)
  have hle := List.toFinset_card_le (definitions.map (·.name))
  rw [List.length_map] at hle
  omega

/-- The fuel is more than there is below each of the names. -/
def Enough (definitions : List ChainDefinition) (fuel : Nat) (names : List String) : Prop :=
  ∀ name ∈ names, (descendants definitions name).card < fuel

/-- What is enough for a definition leaves enough for its children. -/
theorem Enough.below (hlegal : Legal definitions)
    (hfound : ChainDefinition.find? definitions name = some d) {fuel : Nat}
    (hfuel : (descendants definitions name).card < fuel + 1) :
    Enough definitions fuel d.children := by
  intro child hchild
  have hrefers : Refers definitions name child := (refers_iff hlegal.distinct hfound).2 hchild
  have hlt := card_descendants_lt_of_refers hlegal hrefers
  omega

/-! ## What is met -/

/-- The way through names that are defined comes to an end. -/
theorem exists_meets (hlegal : Legal definitions)
    (hdefined : ∀ name ∈ names, ∃ e ∈ definitions, e.name = name) :
    ∃ met, Meets definitions names met := by
  -- The induction is on a bound of what is below the names, and for each bound on the names.
  have hbound : ∀ (n : Nat) (names : List String), Enough definitions n names →
      (∀ name ∈ names, ∃ e ∈ definitions, e.name = name) →
      ∃ met, Meets definitions names met := by
    intro n
    induction n with
    | zero =>
      intro names henough hdefined
      cases names with
      | nil => exact ⟨[], .nil⟩
      | cons name names => exact absurd (henough name List.mem_cons_self) (Nat.not_lt_zero _)
    | succ n ih =>
      intro names henough hdefined
      induction names with
      | nil => exact ⟨[], .nil⟩
      | cons name names ihnames =>
        obtain ⟨hname, hnames⟩ := List.forall_mem_cons.1 henough
        obtain ⟨hfirst, hrest⟩ := List.forall_mem_cons.1 hdefined
        obtain ⟨d, hfound⟩ := Option.isSome_iff_exists.1 (find?_isSome_iff.2 hfirst)
        obtain ⟨met, hmet⟩ := ih d.children (.below hlegal hfound hname)
          (hlegal.defined d (mem_of_find? hfound).1)
        obtain ⟨others, hothers⟩ := ihnames hnames hrest
        exact ⟨_, .cons hfound hmet hothers⟩
  refine hbound definitions.length names (fun name hname => ?_) hdefined
  obtain ⟨e, he, rfl⟩ := hdefined name hname
  exact card_descendants_lt hlegal he

/-- The definitions met are those that the names lead to. -/
theorem Meets.mem_iff (h : Meets definitions names met)
    (hdistinct : (definitions.map (·.name)).Nodup) :
    e ∈ met ↔ e ∈ definitions ∧
      ∃ name ∈ names, Relation.ReflTransGen (Refers definitions) name e.name := by
  induction h with
  | nil => simp
  | @cons name names d met others found below behind ihbelow ihbehind =>
    obtain ⟨hd, rfl⟩ := mem_of_find? found
    have hself : e = d ↔ e ∈ definitions ∧ d.name = e.name := by
      constructor
      · rintro rfl
        exact ⟨hd, rfl⟩
      · rintro ⟨he, hname⟩
        exact (List.inj_on_of_nodup_map hdistinct hd he hname).symm
    have hpath : Relation.ReflTransGen (Refers definitions) d.name e.name ↔
        d.name = e.name ∨
          ∃ child ∈ d.children, Relation.ReflTransGen (Refers definitions) child e.name := by
      rw [Relation.ReflTransGen.cases_head_iff]
      simp only [refers_iff hdistinct found]
    rw [List.mem_cons, List.mem_append, ihbelow, ihbehind, hself, List.exists_mem_cons_iff, hpath]
    simp only [and_or_left, or_assoc]

/-- The definitions met below a name are those that it leads to. -/
theorem Meets.mem_iff_transGen (h : Meets definitions d.children met)
    (hdistinct : (definitions.map (·.name)).Nodup)
    (hfound : ChainDefinition.find? definitions name = some d) :
    e ∈ met ↔ e ∈ definitions ∧ Relation.TransGen (Refers definitions) name e.name := by
  rw [h.mem_iff hdistinct, Relation.TransGen.head'_iff]
  simp only [refers_iff hdistinct hfound]

/-! ## The unfolding -/

/-- Where no definition without extractor is found all have one. -/
theorem isSome_extract (h : met.find? (fun e => e.extract.isNone) = none) :
    ∀ e ∈ met, e.extract.isSome = true := by
  simpa [Option.isSome_iff_ne_none] using h

/-- Where every definition met has an extractor there is an unfolding. -/
theorem Meets.exists_unfolds (h : Meets definitions names met)
    (hall : ∀ e ∈ met, e.extract.isSome = true) : ∃ specs, Unfolds definitions names specs := by
  induction h with
  | nil => exact ⟨[], .nil⟩
  | cons found below behind ihbelow ihbehind =>
    obtain ⟨hd, hrest⟩ := List.forall_mem_cons.1 hall
    obtain ⟨x, hx⟩ := Option.isSome_iff_exists.1 hd
    obtain ⟨hmet, hothers⟩ := List.forall_mem_append.1 hrest
    obtain ⟨children, hchildren⟩ := ihbelow hmet
    obtain ⟨rest, hrest⟩ := ihbehind hothers
    exact ⟨_, .cons found hx hchildren hrest⟩

/-- All chains of an unfolding have extractors. -/
theorem Unfolds.unextracted (h : Unfolds definitions names specs) :
    ChainSpec.unextractedAmong? specs = none := by
  induction h with
  | nil => rfl
  | cons found extracted below behind ihbelow ihbehind =>
    simp [ChainSpec.unextractedAmong?, ChainSpec.unextracted?, ihbelow, ihbehind]

/-- A definition that is unfolded has the shape of a root chain. -/
theorem ChainDefinition.UnfoldsTo.validate {s : ChainSpec} (h : d.UnfoldsTo definitions s) :
    s.validate = .ok () := by
  obtain ⟨children, hchildren, rfl⟩ := h
  simp [ChainSpec.validate, ChainSpec.extractor, ChainSpec.children, hchildren.unextracted]

end Graph

namespace Catalog

variable {c : Catalog} {d e : ChainDefinition} {x : Option Extractor} {name : String}
  {names : List String} {met : List ChainDefinition} {specs : List ChainSpec} {fuel : Nat}

/-- The nested chains of some names. -/
def unfoldAll (c : Catalog) (fuel : Nat) (names : List String) :
    Except CatalogError (List ChainSpec) :=
  names.mapM fun name => do
    let (child, extract) ← c.nested name
    c.unfold fuel child (some extract)

theorem unfold_succ (c : Catalog) (fuel : Nat) (d : ChainDefinition) (x : Option Extractor) :
    c.unfold (fuel + 1) d x =
      (c.unfoldAll fuel d.children).map fun children =>
        .mk d.entry children x (d.edit.map (·.build)) := rfl

/-- A name whose definition has no extractor ends it. -/
theorem unfoldAll_cons_of_none (hfound : c.get? name = some d) (hx : d.extract = none) :
    c.unfoldAll fuel (name :: names) = .error (.missingExtractor d.name) := by
  unfold unfoldAll
  rw [List.mapM_cons]
  simp [nested, hfound, hx, bind, Except.bind]

/-- Otherwise its chain comes first. -/
theorem unfoldAll_cons_of_some {extract : ExtractorDef} (hfound : c.get? name = some d)
    (hx : d.extract = some extract) :
    c.unfoldAll (fuel + 1) (name :: names) =
      (c.unfoldAll fuel d.children).bind fun children =>
        (c.unfoldAll (fuel + 1) names).map fun rest =>
          .mk d.entry children (some extract.build) (d.edit.map (·.build)) :: rest := by
  have hchild : (do
      let (child, extract) ← c.nested name
      c.unfold (fuel + 1) child (some extract)) =
        c.unfold (fuel + 1) d (some extract.build) := by
    simp [nested, hfound, hx, bind, Except.bind]
  rw [unfoldAll, List.mapM_cons, hchild, unfold_succ]
  cases c.unfoldAll fuel d.children with
  | error e => rfl
  | ok children => rfl

/-- With enough fuel names give their unfolding. -/
theorem unfoldAll_of_unfolds (hlegal : Legal c.definitions)
    (h : Unfolds c.definitions names specs) (hfuel : Enough c.definitions fuel names) :
    c.unfoldAll fuel names = .ok specs := by
  induction h generalizing fuel with
  | nil => rfl
  | @cons name names d x children rest found extracted below behind ihbelow ihbehind =>
    obtain ⟨hname, hnames⟩ := List.forall_mem_cons.1 hfuel
    cases fuel with
    | zero => exact absurd hname (Nat.not_lt_zero _)
    | succ fuel =>
      rw [unfoldAll_cons_of_some found extracted, ihbelow (.below hlegal found hname),
        ihbehind hnames]
      rfl

/-- With enough fuel the first definition met that has no extractor is reported. -/
theorem unfoldAll_of_meets (hlegal : Legal c.definitions) (h : Meets c.definitions names met)
    (hfirst : met.find? (fun e => e.extract.isNone) = some e)
    (hfuel : Enough c.definitions fuel names) :
    c.unfoldAll fuel names = .error (.missingExtractor e.name) := by
  induction h generalizing fuel with
  | nil => cases hfirst
  | @cons name names d met others found below behind ihbelow ihbehind =>
    obtain ⟨hname, hnames⟩ := List.forall_mem_cons.1 hfuel
    cases hx : d.extract with
    | none =>
      obtain rfl : d = e := by simpa [hx] using hfirst
      exact unfoldAll_cons_of_none found hx
    | some x =>
      cases fuel with
      | zero => exact absurd hname (Nat.not_lt_zero _)
      | succ fuel =>
        have hbelow : Enough c.definitions fuel d.children := .below hlegal found hname
        rw [unfoldAll_cons_of_some found hx]
        rw [List.find?_cons_of_neg (by simp [hx]), List.find?_append] at hfirst
        cases hmet : met.find? (fun e => e.extract.isNone) with
        | some f =>
          -- The first one is met below this name.
          obtain rfl : f = e := by simpa [hmet] using hfirst
          rw [ihbelow hmet hbelow]
          rfl
        | none =>
          -- All those below have extractors, so the chain is there and the others are next.
          obtain ⟨children, hchildren⟩ := below.exists_unfolds (isSome_extract hmet)
          rw [hmet, Option.none_or] at hfirst
          rw [unfoldAll_of_unfolds hlegal hchildren hbelow, ihbehind hfirst hnames]
          rfl

/-- What unfolding a definition gives, with any fuel that is enough for it. -/
theorem unfold_eq (hlegal : Legal c.definitions) (hd : d ∈ c.definitions)
    (hmeets : Meets c.definitions d.children met) :
    (∃ e, met.find? (fun e => e.extract.isNone) = some e ∧
        ∀ fuel x, (descendants c.definitions d.name).card < fuel →
          c.unfold fuel d x = .error (.missingExtractor e.name)) ∨
      met.find? (fun e => e.extract.isNone) = none ∧
        ∃ children, Unfolds c.definitions d.children children ∧
          ∀ fuel x, (descendants c.definitions d.name).card < fuel →
            c.unfold fuel d x = .ok (.mk d.entry children x (d.edit.map (·.build))) := by
  have hstep : ∀ fuel, (descendants c.definitions d.name).card < fuel →
      ∃ k, fuel = k + 1 ∧ Enough c.definitions k d.children := by
    intro fuel hfuel
    cases fuel with
    | zero => exact absurd hfuel (Nat.not_lt_zero _)
    | succ k => exact ⟨k, rfl, .below hlegal (find?_of_mem hlegal.distinct hd) hfuel⟩
  cases hfirst : met.find? (fun e => e.extract.isNone) with
  | some e =>
    refine .inl ⟨e, rfl, fun fuel x hfuel => ?_⟩
    obtain ⟨k, rfl, hbelow⟩ := hstep fuel hfuel
    rw [unfold_succ, unfoldAll_of_meets hlegal hmeets hfirst hbelow]
    rfl
  | none =>
    obtain ⟨children, hchildren⟩ := hmeets.exists_unfolds (isSome_extract hfirst)
    refine .inr ⟨rfl, children, hchildren, fun fuel x hfuel => ?_⟩
    obtain ⟨k, rfl, hbelow⟩ := hstep fuel hfuel
    rw [unfold_succ, unfoldAll_of_unfolds hlegal hchildren hbelow]
    rfl

/-- More fuel than there are definitions makes no difference. -/
theorem unfold_of_le (hlegal : Legal c.definitions) (hd : d ∈ c.definitions)
    (hfuel : c.definitions.length ≤ fuel) :
    c.unfold fuel d x = c.unfold c.definitions.length d x := by
  have hlength := card_descendants_lt hlegal hd
  have hlt := Nat.lt_of_lt_of_le hlength hfuel
  obtain ⟨met, hmeets⟩ := exists_meets hlegal (hlegal.defined d hd)
  rcases unfold_eq hlegal hd hmeets with ⟨e, -, heq⟩ | ⟨-, children, -, heq⟩
  · rw [heq fuel x hlt, heq _ x hlength]
  · rw [heq fuel x hlt, heq _ x hlength]

theorem spec_of_none (hd : c.get? name = none) :
    c.spec name = .error (.unknownChain name "lookup") := by
  simp [spec, hd]

theorem spec_of_extractor (hd : c.get? name = some d) (hx : d.extract.isSome = true) :
    c.spec name = .error (.rootExtractor name) := by
  simp [spec, hd, hx]

/-- What the catalog makes of the name of a definition without extractor. -/
theorem spec_eq (hlegal : Legal c.definitions) (hd : c.get? name = some d)
    (hx : d.extract = none) :
    ∃ met, Meets c.definitions d.children met ∧
      ((∃ e, met.find? (fun e => e.extract.isNone) = some e ∧
          c.spec name = .error (.missingExtractor e.name)) ∨
        met.find? (fun e => e.extract.isNone) = none ∧
          ∃ s, d.UnfoldsTo c.definitions s ∧ c.spec name = .ok s) := by
  have hmem := (mem_of_find? hd).1
  have hlength := card_descendants_lt hlegal hmem
  have hspec : c.spec name = c.unfold c.definitions.length d none := by simp [spec, hd, hx]
  obtain ⟨met, hmeets⟩ := exists_meets hlegal (hlegal.defined d hmem)
  refine ⟨met, hmeets, ?_⟩
  rw [hspec]
  rcases unfold_eq hlegal hmem hmeets with ⟨e, hfirst, heq⟩ | ⟨hnone, children, hchildren, heq⟩
  · exact .inl ⟨e, hfirst, heq _ none hlength⟩
  · exact .inr ⟨hnone, _, ⟨children, hchildren, rfl⟩, heq _ none hlength⟩

/-- Where a chain comes of a name. -/
theorem exists_of_spec_ok (hlegal : Legal c.definitions) {s : ChainSpec}
    (hs : c.spec name = .ok s) :
    ∃ d met, c.get? name = some d ∧ d.extract = none ∧ Meets c.definitions d.children met ∧
      met.find? (fun e => e.extract.isNone) = none ∧ d.UnfoldsTo c.definitions s := by
  cases hd : c.get? name with
  | none =>
    rw [spec_of_none hd] at hs
    cases hs
  | some d =>
    cases hx : d.extract with
    | some x =>
      rw [spec_of_extractor hd (by simp [hx])] at hs
      cases hs
    | none =>
      obtain ⟨met, hmeets, ⟨e, -, he⟩ | ⟨hnone, t, ht, hspec⟩⟩ := spec_eq hlegal hd hx
      · rw [he] at hs
        cases hs
      · rw [hspec] at hs
        obtain rfl := Except.ok.inj hs
        exact ⟨d, met, rfl, hx, hmeets, hnone, ht⟩

/-- A catalog holds the definitions that it was made of, and they are legal. -/
theorem legal_of_ok {definitions : List ChainDefinition} (h : ofDefinitions definitions = .ok c) :
    c.definitions = definitions ∧ Legal definitions := by
  rcases ofDefinitions_eq definitions with ⟨hok, hlegal⟩ | ⟨e, he, -⟩
  · rw [hok] at h
    obtain rfl := Except.ok.inj h
    exact ⟨rfl, hlegal⟩
  · rw [he] at h
    cases h

/-- What a catalog makes of a name. A name that is not defined is not unfolded, nor is one whose
definition has an extractor. For any other name the definitions below it, in the order in which
they are met, decide: if they all have extractors the chain is the definition unfolded, and it has
the shape of a root chain, and otherwise the first one that lacks an extractor is reported. Nothing
else comes of it, and the fuel is never used up. -/
theorem spec_of_ofDefinitions {definitions : List ChainDefinition} {c : Catalog}
    (h : ofDefinitions definitions = .ok c) (name : String) :
    (c.get? name = none → c.spec name = .error (.unknownChain name "lookup")) ∧
    (∀ d, c.get? name = some d → d.extract.isSome = true →
      c.spec name = .error (.rootExtractor name)) ∧
    (∀ d, c.get? name = some d → d.extract = none →
      ∃ met, Meets definitions d.children met ∧
        (∀ e, e ∈ met ↔
          e ∈ definitions ∧ Relation.TransGen (Refers definitions) name e.name) ∧
        (∀ e, met.find? (fun e => e.extract.isNone) = some e →
          c.spec name = .error (.missingExtractor e.name)) ∧
        (met.find? (fun e => e.extract.isNone) = none →
          ∃ s, d.UnfoldsTo definitions s ∧ c.spec name = .ok s)) ∧
    ((∃ s, c.spec name = .ok s) ↔
      ∃ d, c.get? name = some d ∧ d.extract = none ∧
        ∀ e ∈ definitions, Relation.TransGen (Refers definitions) name e.name →
          e.extract.isSome = true) ∧
    (∀ s, c.spec name = .ok s →
      (∃ d, c.get? name = some d ∧ d.UnfoldsTo definitions s) ∧ s.validate = .ok ()) ∧
    ∀ fuel, definitions.length ≤ fuel → ∀ d ∈ definitions, ∀ x,
      c.unfold fuel d x = c.unfold definitions.length d x := by
  obtain ⟨rfl, hlegal⟩ := legal_of_ok h
  refine ⟨spec_of_none, fun d => spec_of_extractor, ?_, ⟨?_, ?_⟩, ?_, ?_⟩
  · intro d hd hx
    obtain ⟨met, hmeets, hresult⟩ := spec_eq hlegal hd hx
    refine ⟨met, hmeets, fun e => hmeets.mem_iff_transGen hlegal.distinct hd, ?_, ?_⟩
    · intro e hfirst
      rcases hresult with ⟨f, hf, hspec⟩ | ⟨hnone, -⟩
      · rw [hfirst] at hf
        obtain rfl := Option.some.inj hf
        exact hspec
      · rw [hnone] at hfirst
        cases hfirst
    · intro hnone
      rcases hresult with ⟨f, hf, -⟩ | ⟨-, hspec⟩
      · rw [hnone] at hf
        cases hf
      · exact hspec
  · rintro ⟨s, hs⟩
    obtain ⟨d, met, hd, hx, hmeets, hnone, -⟩ := exists_of_spec_ok hlegal hs
    refine ⟨d, hd, hx, fun e he hpath => ?_⟩
    exact isSome_extract hnone e ((hmeets.mem_iff_transGen hlegal.distinct hd).2 ⟨he, hpath⟩)
  · rintro ⟨d, hd, hx, hall⟩
    obtain ⟨met, hmeets, ⟨e, hfirst, -⟩ | ⟨-, s, -, hspec⟩⟩ := spec_eq hlegal hd hx
    · -- The definition that was found lacks an extractor, but it is below the name.
      obtain ⟨he, hpath⟩ := (hmeets.mem_iff_transGen hlegal.distinct hd).1
        (List.mem_of_find?_eq_some hfirst)
      have hnone : e.extract = none := by simpa using List.find?_some hfirst
      have hsome := hall e he hpath
      rw [hnone] at hsome
      cases hsome
    · exact ⟨s, hspec⟩
  · intro s hs
    obtain ⟨d, met, hd, -, -, -, hunfolds⟩ := exists_of_spec_ok hlegal hs
    exact ⟨⟨d, hd, hunfolds⟩, hunfolds.validate⟩
  · intro fuel hfuel d hd x
    exact unfold_of_le hlegal hd hfuel

end Catalog

namespace Sample

/-- A page with a list that has notes, and with notes of its own; a draft with such a list, and
with a text that has no extractor. -/
def outline : List ChainDefinition :=
  [⟨"page", .html, ["html"], ["list", "note"], none, none⟩,
    ⟨"list", .html, [], ["note"], some (.kinds ["element"] []), none⟩,
    ⟨"note", .css, [], [], some .htmlStyle, some .stripCommentWrapper⟩,
    ⟨"draft", .html, [], ["list", "text"], none, none⟩,
    ⟨"text", .css, [], [], none, none⟩]

/-- The notes. -/
def note : ChainSpec :=
  .mk .css [] (some Extractor.htmlStyle) (some Editor.stripCommentWrapper)

/-- The page unfolded, in which the notes stand twice. -/
def outlinedPage : ChainSpec :=
  .mk .html [.mk .html [note] (some (Extractor.ofKinds ["element"] [])) none, note] none none

end Sample

/-- The page is unfolded; below the draft a definition lacks an extractor. -/
theorem Catalog.spec_outline :
    Catalog.ofDefinitions Sample.outline = .ok ⟨Sample.outline⟩ ∧
    (Catalog.spec ⟨Sample.outline⟩ "page" = .ok Sample.outlinedPage ∧
      (∃ d, Catalog.get? ⟨Sample.outline⟩ "page" = some d ∧
        d.UnfoldsTo Sample.outline Sample.outlinedPage) ∧
      Sample.outlinedPage.validate = .ok ()) ∧
    Catalog.spec ⟨Sample.outline⟩ "draft" = .error (.missingExtractor "text") ∧
    ∃ e ∈ Sample.outline, Relation.TransGen (Refers Sample.outline) "draft" e.name ∧
      e.extract.isSome = false := by
  have hok : Catalog.ofDefinitions Sample.outline = .ok ⟨Sample.outline⟩ := by decide +kernel
  have hpage : Catalog.spec ⟨Sample.outline⟩ "page" = .ok Sample.outlinedPage := rfl
  have hdraft : Catalog.spec ⟨Sample.outline⟩ "draft" = .error (.missingExtractor "text") := rfl
  obtain ⟨-, -, -, -, hunfolds, -⟩ := Catalog.spec_of_ofDefinitions hok "page"
  obtain ⟨-, -, -, hiff, -, -⟩ := Catalog.spec_of_ofDefinitions hok "draft"
  refine ⟨hok, ⟨hpage, hunfolds _ hpage⟩, hdraft, ?_⟩
  by_contra hnone
  have hall : ∀ e ∈ Sample.outline, Relation.TransGen (Refers Sample.outline) "draft" e.name →
      e.extract.isSome = true := by
    intro e he hpath
    by_contra hx
    exact hnone ⟨e, he, hpath, by simpa using hx⟩
  obtain ⟨s, hs⟩ := hiff.2 ⟨_, rfl, rfl, hall⟩
  rw [hdraft] at hs
  cases hs

end Polyglot
