import Polyglot.Proofs.Config.AtHand
import Polyglot.Proofs.Config.Selection

/-!
# Building the rules of a configuration that was checked

The checks on a configuration look at one definition after the other, at the names that chains list
as children, and at the names that rules mention. Together they settle what the catalog needs:
every chain without extractor can be unfolded, however deep (`Accepted.exists_spec`).

So a rule can be built from its definition unless the definition is flawed in one of two ways
(`RuleDefinition.Flawed`), which no check looks at: the chain that it names is one for nested
regions, or its query does not compile. The rules are built in order, up to the first definition
that is flawed (`LintConfig.buildRules_outcomes`).
-/

set_option autoImplicit false

namespace Polyglot

/-! ## Chains -/

/-- A chain that is listed as a child, and has no issue, has an extractor. -/
theorem ChainDefinition.isSome_extract_of_issues {nested : List String} {d : ChainDefinition}
    (h : d.issues nested = []) (hd : d.name ∈ nested) : d.extract.isSome = true := by
  unfold ChainDefinition.issues at h
  simp only [List.append_eq_nil_iff] at h
  obtain ⟨⟨⟨-, hextract⟩, -⟩, -⟩ := h
  cases hx : d.extract with
  | some x => rfl
  | none => simp [hx, hd] at hextract

namespace LintConfig.Accepted

variable {c : LintConfig}

theorem legal (h : c.Accepted) : Legal c.chains :=
  (Catalog.legal_of_ok h.catalog).2

/-- What is referred to has an extractor. -/
theorem isSome_extract (h : c.Accepted) {name : String} {e : ChainDefinition} (he : e ∈ c.chains)
    (hrefers : Refers c.chains name e.name) : e.extract.isSome = true := by
  obtain ⟨d, hd, -, hchild⟩ := hrefers
  have hmem : e.name ∈ c.chains.flatMap (·.children) := List.mem_flatMap.2 ⟨d, hd, hchild⟩
  exact ChainDefinition.isSome_extract_of_issues (h.chains e he) hmem

/-- A chain without extractor can be unfolded. -/
theorem exists_spec (h : c.Accepted) {d : ChainDefinition} {name : String}
    (hd : ChainDefinition.find? c.chains name = some d) (hx : d.extract = none) :
    ∃ s, Catalog.spec ⟨c.chains⟩ name = .ok s ∧ d.UnfoldsTo c.chains s := by
  obtain ⟨met, hmeets, ⟨e, hfirst, -⟩ | ⟨-, s, hunfolds, hspec⟩⟩ :=
    Catalog.spec_eq (c := ⟨c.chains⟩) h.legal hd hx
  · -- The definition that lacks an extractor would be below the name, so something refers to it.
    obtain ⟨he, hpath⟩ := (hmeets.mem_iff_transGen h.legal.distinct hd).1
      (List.mem_of_find?_eq_some hfirst)
    obtain ⟨_, -, hrefers⟩ := Relation.TransGen.tail'_iff.1 hpath
    have hsome := h.isSome_extract he hrefers
    have hnone : e.extract = none := by simpa using List.find?_some hfirst
    rw [hnone] at hsome
    cases hsome
  · exact ⟨s, hspec, hunfolds⟩

end LintConfig.Accepted

/-! ## Rules -/

namespace RuleDefinition

variable {compiler : QueryCompiler} {definitions : List ChainDefinition} {c : LintConfig}
  {d : RuleDefinition} {e : ConfigError}

/-- A rule without issues names a chain or a language, and not both. -/
theorem chain_or_lang_of_issues (h : d.issues = []) :
    (∃ name, d.chain = some name ∧ d.lang = none) ∨ ∃ l, d.chain = none ∧ d.lang = some l := by
  unfold issues at h
  simp only [List.append_eq_nil_iff] at h
  obtain ⟨⟨hboth, -⟩, -⟩ := h
  cases hchain : d.chain <;> cases hlang : d.lang <;> simp_all

/-- The language that the query is asked of: the target, or else the language that the files are
in. -/
def asked? (definitions : List ChainDefinition) (d : RuleDefinition) : Option Language :=
  d.target.or <|
    match d.chain with
    | some name => (ChainDefinition.find? definitions name).map (·.entry)
    | none => d.lang

/-- The chain that the rule names, if it names one, declares no extractor. -/
def Rooted (definitions : List ChainDefinition) (d : RuleDefinition) : Prop :=
  ∀ name chain, d.chain = some name → ChainDefinition.find? definitions name = some chain →
    chain.extract = none

/-- No rule can be built from the definition, for this reason: the chain it names declares an
extractor, or else its query does not compile for the language that it is asked of. -/
inductive Flawed (compiler : QueryCompiler) (definitions : List ChainDefinition)
    (d : RuleDefinition) : ConfigError → Prop where
  | nested {name : String} {chain : ChainDefinition} (named : d.chain = some name)
      (found : ChainDefinition.find? definitions name = some chain)
      (extracted : chain.extract.isSome = true) :
      Flawed compiler definitions d (.catalog none (.rootExtractor name))
  | query {l : Language} {message : String} (rooted : d.Rooted definitions)
      (asked : d.asked? definitions = some l) (refused : compiler l d.query = .error message) :
      Flawed compiler definitions d (.query d.name (.invalidQuery l message))

/-- The rule is the one of the definition: it has its name and its description, selects files by
its plan, and reports what its query captures in the trees of the language it is asked of. -/
structure Describes (definitions : List ChainDefinition) (d : RuleDefinition) (r : Rule) :
    Prop where
  name : r.name = d.name
  description : r.description = d.description
  selects : ∃ plan choose, d.Planned ⟨definitions⟩ plan ∧ Follows choose plan ∧
    d.asked? definitions = some plan.target ∧ r.selector = .select choose ∧
    r.run = report plan.target d.query d.violationTitle

theorem Rooted.not_isSome (h : d.Rooted definitions) {name : String} {chain : ChainDefinition}
    (named : d.chain = some name) (found : ChainDefinition.find? definitions name = some chain) :
    ¬chain.extract.isSome = true := by
  rw [h name chain named found]
  exact Bool.false_ne_true

theorem Flawed.unique {e' : ConfigError} (h : d.Flawed compiler definitions e)
    (h' : d.Flawed compiler definitions e') : e = e' := by
  cases h with
  | nested named found extracted =>
    cases h' with
    | nested named' =>
      obtain rfl := Option.some.inj (named.symm.trans named')
      rfl
    | query rooted => exact absurd extracted (rooted.not_isSome named found)
  | query rooted asked refused =>
    cases h' with
    | nested named found extracted => exact absurd extracted (rooted.not_isSome named found)
    | query _ asked' refused' =>
      obtain rfl := Option.some.inj (asked.symm.trans asked')
      obtain rfl := Except.error.inj (refused.symm.trans refused')
      rfl

theorem selection_of_spec {catalog : Catalog} {name : String} {s : ChainSpec}
    (hname : d.chain = some name) (hspec : catalog.spec name = .ok s) :
    d.selection catalog = .ok
      (chooseChain (((catalog.get? name).map (·.extensions)).getD []) s,
        d.target.getD s.entry) := by
  simp only [selection, hname, hspec]

theorem selection_of_lang {catalog : Catalog} {l : Language} (hname : d.chain = none)
    (hl : d.lang = some l) :
    d.selection catalog = .ok (chooseLanguage l, d.target.getD l) := by
  simp only [selection, hname, hl]

/-- Where the chain of the rule is not one for nested regions, files are selected and the query has
a language. -/
theorem exists_selection (h : c.Accepted) (hd : d ∈ c.rules) (hrooted : d.Rooted c.chains) :
    ∃ choose target, d.selection ⟨c.chains⟩ = .ok (choose, target) ∧
      d.asked? c.chains = some target := by
  rcases chain_or_lang_of_issues (h.rules d hd) with ⟨name, hname, -⟩ | ⟨l, hname, hl⟩
  · obtain ⟨chain, hfound⟩ := h.named d hd name hname
    obtain ⟨s, hspec, _, _, rfl⟩ := h.exists_spec hfound (hrooted name chain hname hfound)
    have hasked : d.asked? c.chains = some (d.target.getD chain.entry) := by
      cases htarget : d.target <;> simp [asked?, hname, hfound, htarget]
    exact ⟨_, _, selection_of_spec hname hspec, hasked⟩
  · have hasked : d.asked? c.chains = some (d.target.getD l) := by
      cases htarget : d.target <;> simp [asked?, hname, hl, htarget]
    exact ⟨_, _, selection_of_lang hname hl, hasked⟩

/-- A definition of an accepted configuration is flawed, or a rule is built from it. -/
theorem build_cases (h : c.Accepted) (hd : d ∈ c.rules) (compiler : QueryCompiler) :
    (∃ e, d.build compiler ⟨c.chains⟩ = .error e ∧ d.Flawed compiler c.chains e) ∨
      ((∀ e, ¬d.Flawed compiler c.chains e) ∧
        ∃ r, d.build compiler ⟨c.chains⟩ = .ok r ∧ d.Describes c.chains r) := by
  by_cases hrooted : d.Rooted c.chains
  · obtain ⟨choose, target, hselection, hasked⟩ := exists_selection h hd hrooted
    cases hcompile : compiler target d.query with
    | error message =>
      refine .inl ⟨_, ?_, .query hrooted hasked hcompile⟩
      simp only [build, hselection, hcompile]
    | ok q =>
      have hsound : ∀ e, ¬d.Flawed compiler c.chains e := by
        intro e hflawed
        cases hflawed with
        | nested named found extracted => exact absurd extracted (hrooted.not_isSome named found)
        | query _ asked refused =>
          obtain rfl := Option.some.inj (hasked.symm.trans asked)
          rw [hcompile] at refused
          cases refused
      obtain ⟨plan, hplan, hfollows, rfl⟩ := exists_plan hselection
      refine .inr ⟨hsound, ⟨d.name, d.description, .select choose,
        report plan.target d.query d.violationTitle⟩, ?_, rfl, rfl, ?_⟩
      · simp only [build, hselection, hcompile]
        rfl
      · exact ⟨plan, choose, hplan, hfollows, hasked, rfl, rfl⟩
  · unfold Rooted at hrooted
    push Not at hrooted
    obtain ⟨name, chain, hname, hfound, hx⟩ := hrooted
    have hsome : chain.extract.isSome = true := Option.isSome_iff_ne_none.2 hx
    refine .inl ⟨_, ?_, .nested hname hfound hsome⟩
    simp only [build, selection, hname, Catalog.spec_of_extractor (c := ⟨c.chains⟩) hfound hsome]

theorem build_eq_error_iff (h : c.Accepted) (hd : d ∈ c.rules) :
    d.build compiler ⟨c.chains⟩ = .error e ↔ d.Flawed compiler c.chains e := by
  rcases build_cases h hd compiler with ⟨e', hbuild, hflawed⟩ | ⟨hsound, r, hbuild, -⟩
  · rw [hbuild, Except.error.injEq]
    exact ⟨fun heq => heq ▸ hflawed, fun hflawed' => hflawed.unique hflawed'⟩
  · rw [hbuild]
    exact ⟨nofun, fun hflawed => absurd hflawed (hsound e)⟩

theorem exists_build_iff (h : c.Accepted) (hd : d ∈ c.rules) :
    (∃ r, d.build compiler ⟨c.chains⟩ = .ok r) ↔ ∀ e, ¬d.Flawed compiler c.chains e := by
  rcases build_cases h hd compiler with ⟨e', hbuild, hflawed⟩ | ⟨hsound, r, hbuild, -⟩
  · rw [hbuild]
    exact ⟨nofun, fun hsound => absurd hflawed (hsound e')⟩
  · exact ⟨fun _ => hsound, fun _ => ⟨r, hbuild⟩⟩

theorem describes_of_build (h : c.Accepted) (hd : d ∈ c.rules) {r : Rule}
    (hr : d.build compiler ⟨c.chains⟩ = .ok r) : d.Describes c.chains r := by
  rcases build_cases h hd compiler with ⟨e', hbuild, -⟩ | ⟨-, r', hbuild, hdescribes⟩
  · rw [hbuild] at hr
    cases hr
  · obtain rfl := Except.ok.inj (hbuild.symm.trans hr)
    exact hdescribes

end RuleDefinition

namespace LintConfig

variable {c : LintConfig} {compiler : QueryCompiler}

theorem Accepted.buildRules_eq (h : c.Accepted) (compiler : QueryCompiler) :
    c.buildRules compiler = c.rules.mapM (RuleDefinition.build compiler ⟨c.chains⟩) := by
  rw [buildRules, h.catalog]

/-- The rules cannot be built for the reason that the first flawed definition gives. -/
theorem Accepted.buildRules_eq_error_iff (h : c.Accepted) {e : ConfigError} :
    c.buildRules compiler = .error e ↔ ∃ before d behind, c.rules = before ++ d :: behind ∧
      (∀ b ∈ before, ∀ e', ¬b.Flawed compiler c.chains e') ∧ d.Flawed compiler c.chains e := by
  rw [h.buildRules_eq, mapM_eq_error_iff]
  refine exists_congr fun before => exists_congr fun d => exists_congr fun behind =>
    and_congr_right fun hsplit => and_congr (forall₂_congr fun b hb => ?_) ?_
  · have hmem : b ∈ c.rules := hsplit ▸ List.mem_append_left _ hb
    exact RuleDefinition.exists_build_iff h hmem
  · have hmem : d ∈ c.rules := hsplit ▸ List.mem_append_right _ List.mem_cons_self
    exact RuleDefinition.build_eq_error_iff h hmem

/-- The rules can be built if no definition is flawed. -/
theorem Accepted.exists_buildRules_iff (h : c.Accepted) :
    (∃ rules, c.buildRules compiler = .ok rules) ↔
      ∀ d ∈ c.rules, ∀ e, ¬d.Flawed compiler c.chains e := by
  rw [h.buildRules_eq, exists_mapM_iff]
  exact forall₂_congr fun d hd => RuleDefinition.exists_build_iff h hd

/-- The rules that are built are those of the definitions, in their order. -/
theorem Accepted.describes_of_buildRules (h : c.Accepted) {rules : List Rule}
    (hrules : c.buildRules compiler = .ok rules) :
    List.Forall₂ (RuleDefinition.Describes c.chains) c.rules rules := by
  have hplaces := (List.forall₂_and_left (p := (· ∈ c.rules)) _ _).2
    ⟨fun d hd => hd, forall₂_buildRules hrules⟩
  refine hplaces.imp ?_
  rintro d r ⟨hd, hbuild⟩
  exact RuleDefinition.describes_of_build h hd hbuild

/-- What comes of the rules of a configuration that was checked. Every chain without extractor can
be unfolded. The rules that are built are those of the definitions in their order, and there are
rules if no definition is flawed; otherwise the reason is that of the first definition that is. So
nothing fails but the choice of a chain for nested regions and the compilation of a query. -/
theorem buildRules_outcomes {c : LintConfig} (hc : c.checked = .ok c) (compiler : QueryCompiler) :
    (∃ catalog, Catalog.ofDefinitions c.chains = .ok catalog ∧
      ∀ d ∈ c.chains, d.extract = none →
        ∃ s, catalog.spec d.name = .ok s ∧ d.UnfoldsTo c.chains s) ∧
    (∀ rules, c.buildRules compiler = .ok rules →
      List.Forall₂ (RuleDefinition.Describes c.chains) c.rules rules) ∧
    ((∃ rules, c.buildRules compiler = .ok rules) ↔
      ∀ d ∈ c.rules, ∀ e, ¬d.Flawed compiler c.chains e) ∧
    (∀ e, c.buildRules compiler = .error e ↔
      ∃ before d behind, c.rules = before ++ d :: behind ∧
        (∀ b ∈ before, ∀ e', ¬b.Flawed compiler c.chains e') ∧
        d.Flawed compiler c.chains e) ∧
    ∀ e, c.buildRules compiler = .error e →
      (∃ name, e = .catalog none (.rootExtractor name)) ∨
        ∃ name l message, e = .query name (.invalidQuery l message) := by
  have haccepted := accepted_of_checked hc
  refine ⟨⟨⟨c.chains⟩, haccepted.catalog, ?_⟩, ?_, ?_, ?_, ?_⟩
  · intro d hd hx
    exact haccepted.exists_spec (find?_of_mem haccepted.legal.distinct hd) hx
  · intro rules hrules
    exact haccepted.describes_of_buildRules hrules
  · exact haccepted.exists_buildRules_iff
  · intro e
    exact haccepted.buildRules_eq_error_iff
  · intro e he
    obtain ⟨-, d, -, -, -, hflawed⟩ := haccepted.buildRules_eq_error_iff.1 he
    cases hflawed with
    | nested => exact .inl ⟨_, rfl⟩
    | query => exact .inr ⟨_, _, _, rfl⟩

namespace Sample

/-- A page with lists in it that hold code. -/
def pageChains : List ChainDefinition :=
  [⟨"page", .html, ["html"], ["list"], none, none⟩,
    ⟨"list", .html, [], ["code"], some (.kinds ["element"] []), none⟩,
    ⟨"code", .javaScript, [], [], some .htmlScript, some .stripCommentWrapper⟩]

/-- A rule on the code of a page. -/
def onPage : RuleDefinition :=
  ⟨"on-page", none, some "page", none, some .javaScript, "(call) @call", none⟩

/-- A rule on code that stands for itself. -/
def onCode : RuleDefinition :=
  ⟨"on-code", none, some "code", none, none, "(call", none⟩

/-- A rule on style sheets whose query is not closed. -/
def unclosed : RuleDefinition :=
  ⟨"unclosed", none, none, some .css, none, "(call", none⟩

/-- Compiles no query but that of the rule on pages. -/
def sparing : QueryCompiler := fun _ text =>
  if text = "(call) @call" then .ok ⟨[], [], fun _ => []⟩ else .error "not closed"

/-- Pages with some rules. -/
def ruled (rules : List RuleDefinition) : LintConfig :=
  ⟨EngineSettings.standard, pageChains, rules⟩

theorem sound_onPage (e : ConfigError) : ¬onPage.Flawed sparing pageChains e := by
  intro h
  cases h with
  | nested named found extracted =>
    cases named
    cases found
    cases extracted
  | query _ _ refused => cases refused

theorem flawed_onCode :
    onCode.Flawed sparing pageChains (.catalog none (.rootExtractor "code")) :=
  .nested rfl rfl rfl

theorem flawed_unclosed :
    unclosed.Flawed sparing pageChains
      (.query "unclosed" (.invalidQuery .css "not closed")) :=
  .query nofun rfl rfl

end Sample

/-- A rule on pages is built. Behind it a rule on nested code is the first that fails, and without
that one it is the rule whose query is not closed. -/
theorem buildRules_outcomes_ruled :
    ((Sample.ruled [Sample.onPage, Sample.onCode, Sample.unclosed]).checked =
        .ok (Sample.ruled [Sample.onPage, Sample.onCode, Sample.unclosed]) ∧
      (Sample.ruled [Sample.onPage, Sample.onCode, Sample.unclosed]).buildRules Sample.sparing =
        .error (.catalog none (.rootExtractor "code"))) ∧
    ((Sample.ruled [Sample.onPage, Sample.unclosed]).checked =
        .ok (Sample.ruled [Sample.onPage, Sample.unclosed]) ∧
      (Sample.ruled [Sample.onPage, Sample.unclosed]).buildRules Sample.sparing =
        .error (.query "unclosed" (.invalidQuery .css "not closed"))) ∧
    (Sample.ruled [Sample.onPage]).checked = .ok (Sample.ruled [Sample.onPage]) ∧
      ∃ r, (Sample.ruled [Sample.onPage]).buildRules Sample.sparing = .ok [r] ∧
        Sample.onPage.Describes Sample.pageChains r := by
  have hnested : (Sample.ruled [Sample.onPage, Sample.onCode, Sample.unclosed]).checked =
      .ok (Sample.ruled [Sample.onPage, Sample.onCode, Sample.unclosed]) := by decide +kernel
  have hquery : (Sample.ruled [Sample.onPage, Sample.unclosed]).checked =
      .ok (Sample.ruled [Sample.onPage, Sample.unclosed]) := by decide +kernel
  have hsound : (Sample.ruled [Sample.onPage]).checked = .ok (Sample.ruled [Sample.onPage]) := by
    decide +kernel
  have hbefore : ∀ b ∈ [Sample.onPage], ∀ e, ¬b.Flawed Sample.sparing Sample.pageChains e :=
    List.forall_mem_singleton.2 Sample.sound_onPage
  obtain ⟨-, -, -, hfirst, -⟩ := buildRules_outcomes hnested Sample.sparing
  obtain ⟨-, -, -, hsecond, -⟩ := buildRules_outcomes hquery Sample.sparing
  obtain ⟨-, hdescribes, hbuilt, -, -⟩ := buildRules_outcomes hsound Sample.sparing
  obtain ⟨rules, hrules⟩ := hbuilt.2 hbefore
  obtain ⟨r, rest, hr, hrest, rfl⟩ := List.forall₂_cons_left_iff.1 (hdescribes rules hrules)
  obtain rfl := List.forall₂_nil_left_iff.1 hrest
  refine ⟨⟨hnested, (hfirst _).2 ?_⟩, ⟨hquery, (hsecond _).2 ?_⟩, hsound, r, hrules, hr⟩
  · exact ⟨[Sample.onPage], Sample.onCode, [Sample.unclosed], rfl, hbefore, Sample.flawed_onCode⟩
  · exact ⟨[Sample.onPage], Sample.unclosed, [], rfl, hbefore, Sample.flawed_unclosed⟩

end LintConfig

end Polyglot
