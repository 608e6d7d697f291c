import Mathlib.Data.List.Forall2
import Polyglot.Config.QueryRule
import Polyglot.Proofs.Config.Unfolding

/-!
# What configured rules look at

Each rule of a configuration is built from the definition at its place (`forall₂_buildRules`). Its
plan says which paths it selects, the chain their files are parsed with, and the language its query
is asked of (`RuleDefinition.Planned`): a definition with a chain selects by the extensions of the
chain, one with a language by the language that the path suggests.
-/

set_option autoImplicit false

namespace Polyglot

/-! ## Definitions in their order -/

/-- The steps of a list that end well give, place by place, what each gives. -/
theorem forall₂_of_mapM {ε α β : Type} {f : α → Except ε β} {l : List α} {l' : List β}
    (h : l.mapM f = .ok l') : List.Forall₂ (fun a b => f a = .ok b) l l' := by
  induction l generalizing l' with
  | nil =>
    obtain rfl := Except.ok.inj h
    exact .nil
  | cons a l ih =>
    rw [List.mapM_cons] at h
    cases hb : f a with
    | error e =>
      rw [hb] at h
      cases h
    | ok b =>
      cases hrest : l.mapM f with
      | error e =>
        rw [hb, hrest] at h
        cases h
      | ok rest =>
        rw [hb, hrest] at h
        obtain rfl := Except.ok.inj h
        exact .cons hb (ih hrest)

/-- The steps of a list that fail do so at the first one that fails. -/
theorem mapM_eq_error_iff {ε α β : Type} {f : α → Except ε β} {l : List α} {e : ε} :
    l.mapM f = .error e ↔ ∃ before a behind, l = before ++ a :: behind ∧
      (∀ b ∈ before, ∃ y, f b = .ok y) ∧ f a = .error e := by
  constructor
  · intro h
    induction l with
    | nil => cases h
    | cons a l ih =>
      rw [List.mapM_cons] at h
      cases ha : f a with
      | error e' =>
        rw [ha] at h
        obtain rfl := Except.error.inj h
        exact ⟨[], a, l, rfl, nofun, ha⟩
      | ok b =>
        cases hrest : l.mapM f with
        | ok rest =>
          rw [ha, hrest] at h
          cases h
        | error e' =>
          rw [ha, hrest] at h
          obtain rfl := Except.error.inj h
          obtain ⟨before, c, behind, rfl, hbefore, hc⟩ := ih hrest
          exact ⟨a :: before, c, behind, rfl, List.forall_mem_cons.2 ⟨⟨b, ha⟩, hbefore⟩, hc⟩
  · rintro ⟨before, a, behind, rfl, hbefore, ha⟩
    induction before with
    | nil => rw [List.nil_append, List.mapM_cons, ha]; rfl
    | cons b before ih =>
      obtain ⟨⟨y, hy⟩, hbefore⟩ := List.forall_mem_cons.1 hbefore
      rw [List.cons_append, List.mapM_cons, hy, ih hbefore]
      rfl

/-- The steps of a list end well if each does. -/
theorem exists_mapM_iff {ε α β : Type} {f : α → Except ε β} {l : List α} :
    (∃ l', l.mapM f = .ok l') ↔ ∀ a ∈ l, ∃ b, f a = .ok b := by
  constructor
  · rintro ⟨l', h⟩
    have hplaces := forall₂_of_mapM h
    clear h
    induction hplaces with
    | nil => exact nofun
    | cons hb _ ih => exact List.forall_mem_cons.2 ⟨⟨_, hb⟩, ih⟩
  · intro hall
    cases h : l.mapM f with
    | ok l' => exact ⟨l', rfl⟩
    | error e =>
      obtain ⟨before, a, behind, rfl, -, ha⟩ := mapM_eq_error_iff.1 h
      obtain ⟨b, hb⟩ := hall a (List.mem_append_right _ List.mem_cons_self)
      rw [ha] at hb
      cases hb

/-- What a list of steps gives is given by one of them. -/
theorem exists_of_mem_mapM {ε α β : Type} {f : α → Except ε β} {l : List α} {l' : List β}
    (h : l.mapM f = .ok l') : ∀ b ∈ l', ∃ a ∈ l, f a = .ok b := by
  have hplaces := forall₂_of_mapM h
  clear h
  induction hplaces with
  | nil => exact nofun
  | cons hb _ ih =>
    refine List.forall_mem_cons.2 ⟨⟨_, List.mem_cons_self, hb⟩, fun c hc => ?_⟩
    obtain ⟨x, hx, hfx⟩ := ih c hc
    exact ⟨x, List.mem_cons_of_mem _ hx, hfx⟩

/-- The rules of a configuration are built from its definitions in their order. -/
theorem LintConfig.forall₂_buildRules {c : LintConfig} {compiler : QueryCompiler}
    {rules : List Rule} (h : c.buildRules compiler = .ok rules) :
    List.Forall₂ (fun d r => RuleDefinition.build compiler ⟨c.chains⟩ d = .ok r) c.rules rules := by
  unfold buildRules at h
  split at h
  · cases h
  · next catalog hcatalog =>
    obtain ⟨hdefinitions, -⟩ := Catalog.legal_of_ok hcatalog
    obtain rfl : catalog = ⟨c.chains⟩ := by rw [← hdefinitions]
    exact forall₂_of_mapM h

namespace RuleDefinition

variable {compiler : QueryCompiler} {catalog : Catalog} {d : RuleDefinition} {r : Rule}

/-- A rule that was built reports a query that compiles. -/
theorem build_ok (h : d.build compiler catalog = .ok r) :
    ∃ choose target q, d.selection catalog = .ok (choose, target) ∧
      compiler target d.query = .ok q ∧ r.selector = .select choose ∧
      r.run = report target d.query d.violationTitle := by
  unfold build at h
  split at h
  · cases h
  · next choose target hselection =>
    split at h
    · cases h
    · next q hq =>
      obtain rfl := Except.ok.inj h
      exact ⟨choose, target, q, hselection, hq, rfl, rfl⟩

/-! ## Plans -/

/-- Which paths are selected, what their files are parsed with, and the language of the trees that
the query is asked of. -/
structure Plan where
  selects : Path → Prop
  spec : ChainSpec
  target : Language

/-- Whether the path has one of some extensions, in any case. -/
def HasExtension (extensions : List String) (path : Path) : Prop :=
  ∃ ext, path.extension? = some ext ∧ ∃ known ∈ extensions, Text.lower known = Text.lower ext

/-- The plan of a definition. A chain without extensions is for every path. Without a target the
query is asked of the language that the files are in. -/
inductive Planned (catalog : Catalog) (d : RuleDefinition) : Plan → Prop where
  | chain {name : String} {chain : ChainDefinition} {spec : ChainSpec} (named : d.chain = some name)
      (defined : catalog.get? name = some chain) (unfolded : catalog.spec name = .ok spec) :
      Planned catalog d
        ⟨fun path => chain.extensions = [] ∨ HasExtension chain.extensions path, spec,
          d.target.getD spec.entry⟩
  | language {l : Language} (unnamed : d.chain = none) (given : d.lang = some l) :
      Planned catalog d
        ⟨fun path => Language.ofPath? path = some l, ChainSpec.single l, d.target.getD l⟩

/-- The choice follows a plan: it selects the paths of the plan, for its chain. -/
structure Follows (choose : FileMeta → Option Selection) (plan : Plan) : Prop where
  selected : ∀ file, plan.selects file.path → ∃ choice, choose file = some choice ∧
    choice.spec = plan.spec
  ignored : ∀ file, ¬plan.selects file.path → choose file = none

theorem hasExtension_iff {extensions : List String} {path : Path} :
    path.extension?.any (listsExtension extensions) = true ↔ HasExtension extensions path := by
  simp only [HasExtension, Option.any_eq_true, listsExtension, List.any_eq_true, Text.sameLetters,
    beq_iff_eq]

theorem follows_chooseChain (extensions : List String) (spec : ChainSpec) (target : Language) :
    Follows (chooseChain extensions spec)
      ⟨fun path => extensions = [] ∨ HasExtension extensions path, spec, target⟩ := by
  have hchosen (path : Path) : (extensions.isEmpty || path.extension?.any
      (listsExtension extensions)) = true ↔ extensions = [] ∨ HasExtension extensions path := by
    rw [Bool.or_eq_true, List.isEmpty_iff, hasExtension_iff]
  constructor
  · intro file h
    exact ⟨.chain spec, if_pos ((hchosen file.path).2 h), rfl⟩
  · intro file h
    exact if_neg fun hif => h ((hchosen file.path).1 hif)

theorem follows_chooseLanguage (l target : Language) :
    Follows (chooseLanguage l)
      ⟨fun path => Language.ofPath? path = some l, ChainSpec.single l, target⟩ := by
  constructor
  · intro file h
    exact ⟨.language l, if_pos h, rfl⟩
  · intro file h
    exact if_neg h

/-- A definition chooses by its plan. -/
theorem exists_plan {choose : FileMeta → Option Selection} {target : Language}
    (h : d.selection catalog = .ok (choose, target)) :
    ∃ plan, d.Planned catalog plan ∧ Follows choose plan ∧ plan.target = target := by
  unfold selection at h
  cases hchain : d.chain with
  | some name =>
    simp only [hchain] at h
    split at h
    · cases h
    · next spec hspec =>
      obtain ⟨rfl, rfl⟩ := Prod.mk.inj (Except.ok.inj h)
      cases hdefinition : catalog.get? name with
      | none =>
        rw [Catalog.spec_of_none hdefinition] at hspec
        cases hspec
      | some chain =>
        exact ⟨_, .chain hchain hdefinition hspec, follows_chooseChain _ _ _, rfl⟩
  | none =>
    cases hlang : d.lang with
    | some l =>
      simp only [hchain, hlang] at h
      obtain ⟨rfl, rfl⟩ := Prod.mk.inj (Except.ok.inj h)
      exact ⟨_, .language hchain hlang, follows_chooseLanguage _ _, rfl⟩
    | none =>
      simp only [hchain, hlang] at h
      cases h

/-- A rule chooses a chain of the catalog or a single language. -/
theorem spec_of_selection {choose : FileMeta → Option Selection} {target : Language}
    (h : d.selection catalog = .ok (choose, target)) {file : FileMeta} {choice : Selection}
    (hchoice : choose file = some choice) :
    (∃ name, catalog.spec name = .ok choice.spec) ∨ ∃ l, choice.spec = ChainSpec.single l := by
  obtain ⟨plan, hplan, hfollows, -⟩ := exists_plan h
  by_cases hselects : plan.selects file.path
  · obtain ⟨choice', hchoice', hspec⟩ := hfollows.selected file hselects
    obtain rfl := Option.some.inj (hchoice.symm.trans hchoice')
    rw [hspec]
    cases hplan with
    | chain _ _ hunfolded => exact .inl ⟨_, hunfolded⟩
    | language => exact .inr ⟨_, rfl⟩
  · rw [hfollows.ignored file hselects] at hchoice
    cases hchoice

end RuleDefinition

end Polyglot
