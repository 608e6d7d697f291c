import Polyglot.Config.Load
import Polyglot.Proofs.Chain.Occurrences
import Polyglot.Proofs.Chain.Totality
import Polyglot.Proofs.Config.Unfolding

/-!
# Chains of configurations

What a catalog unfolds is put together from the extractors and editors at hand
(`ChainSpec.AtHand`), and where no definition has an issue the editors have something to look for.
So every chain of a configuration that passes its checks can be relied on (`AtHand.reliable`), and
no part of it looks at the numbers of occurrence (`AtHand.blind`).
-/

set_option autoImplicit false

namespace Polyglot

/-! ## Definitions without issues -/

theorem Bytes.ofString_ne_nil {s : String} (h : s ≠ "") : Bytes.ofString s ≠ [] := by
  unfold Bytes.ofString
  cases hs : s.toList with
  | nil => exact absurd (String.toList_eq_nil_iff.1 hs) h
  | cons c rest =>
    have hlength := String.length_utf8EncodeChar c
    have hpos := Char.utf8Size_pos c
    intro hnil
    rw [List.flatMap_cons, List.append_eq_nil_iff] at hnil
    rw [hnil.1, List.length_nil] at hlength
    omega

theorem ExtractorDef.picksNodes_build (x : ExtractorDef) : x.build.PicksNodes := by
  cases x with
  | htmlScript => exact Extractor.picksNodes_htmlScript
  | htmlStyle => exact Extractor.picksNodes_htmlStyle
  | htmlAttribute name => exact Extractor.picksNodes_htmlAttribute name
  | kinds wanted within => exact Extractor.picksNodes_ofKinds wanted within

theorem ExtractorDef.blind_build (x : ExtractorDef) : x.build.Blind := by
  cases x with
  | htmlScript => exact Extractor.blind_htmlScript
  | htmlStyle => exact Extractor.blind_htmlStyle
  | htmlAttribute name => exact Extractor.blind_htmlAttribute name
  | kinds wanted within => exact Extractor.blind_ofKinds wanted within

theorem EditorDef.blind_build (w : EditorDef) : w.build.Blind := by
  cases w with
  | stripCommentWrapper => exact Editor.blind_stripCommentWrapper
  | wrap before behind => exact Editor.blind_wrap _ _
  | blankDelimited opening closing => exact Editor.blind_blankDelimited _ _

/-- An editor without issues is total. -/
theorem EditorDef.total_build {scope : Scope} {w : EditorDef} (h : w.issues scope = []) :
    w.build.Total := by
  cases w with
  | stripCommentWrapper => exact Editor.total_stripCommentWrapper
  | wrap before behind => exact Editor.total_wrap _ _
  | blankDelimited opening closing =>
    have hopening : opening ≠ "" := by
      rintro rfl
      simp [EditorDef.issues] at h
    exact Editor.total_blankDelimited (Bytes.ofString_ne_nil hopening) _

/-- Where a chain definition has no issue, its editor has none. -/
theorem ChainDefinition.issues_edit {nested : List String} {d : ChainDefinition}
    (h : d.issues nested = []) {w : EditorDef} (hw : d.edit = some w) :
    w.issues (.chain d.name) = [] := by
  unfold ChainDefinition.issues at h
  rw [hw] at h
  exact (List.append_eq_nil_iff.1 h).2

namespace LintConfig

/-- Of a list of definitions without issues none has one. -/
theorem issues_of_chainIssues {nested taken : List String} {definitions : List ChainDefinition}
    (h : chainIssues nested taken definitions = []) :
    ∀ d ∈ definitions, d.issues nested = [] := by
  induction definitions generalizing taken with
  | nil => exact List.forall_mem_nil _
  | cons d rest ih =>
    unfold chainIssues at h
    split at h
    · cases h
    · split at h
      · cases h
      · obtain ⟨hd, hrest⟩ := List.append_eq_nil_iff.1 h
        exact List.forall_mem_cons.2 ⟨hd, ih hrest⟩

theorem issues_of_ruleIssues {taken : List String} {rules : List RuleDefinition}
    (h : ruleIssues taken rules = []) : ∀ r ∈ rules, r.issues = [] := by
  induction rules generalizing taken with
  | nil => exact List.forall_mem_nil _
  | cons r rest ih =>
    unfold ruleIssues at h
    obtain ⟨hfront, hrest⟩ := List.append_eq_nil_iff.1 h
    obtain ⟨-, hr⟩ := List.append_eq_nil_iff.1 hfront
    exact List.forall_mem_cons.2 ⟨hr, ih hrest⟩

/-- What the checks find out: no definition has an issue, the chains are catalogued, and the chain
that a rule names is in the catalog. -/
structure Accepted (c : LintConfig) : Prop where
  chains : ∀ d ∈ c.chains, d.issues (c.chains.flatMap (·.children)) = []
  rules : ∀ r ∈ c.rules, r.issues = []
  catalog : Catalog.ofDefinitions c.chains = .ok ⟨c.chains⟩
  named : ∀ r ∈ c.rules, ∀ name, r.chain = some name →
    ∃ d, ChainDefinition.find? c.chains name = some d

theorem accepted_of_checked {c : LintConfig} (h : c.checked = .ok c) : c.Accepted := by
  unfold checked at h
  split at h
  · cases h
  · next hissues =>
    have hnone : c.issues = [] := by simpa using hissues
    obtain ⟨hfront, hrules⟩ := List.append_eq_nil_iff.1 hnone
    have hchains := (List.append_eq_nil_iff.1 hfront).2
    split at h
    · cases h
    · next catalog hcatalog =>
      obtain rfl : catalog = ⟨c.chains⟩ := by rw [← (Catalog.legal_of_ok hcatalog).1]
      split at h
      · cases h
      · next hdefined =>
        refine ⟨issues_of_chainIssues hchains, issues_of_ruleIssues hrules, hcatalog, ?_⟩
        intro r hr name hname
        have hfound := List.findSome?_eq_none_iff.1 hdefined r hr
        rw [hname] at hfound
        simp only at hfound
        split at hfound
        · next hsome => exact Option.isSome_iff_exists.1 hsome
        · cases hfound

theorem of_checked {c : LintConfig} (h : c.checked = .ok c) :
    (∃ nested, ∀ d ∈ c.chains, d.issues nested = []) ∧
      Catalog.ofDefinitions c.chains = .ok ⟨c.chains⟩ :=
  have haccepted := accepted_of_checked h
  ⟨⟨_, haccepted.chains⟩, haccepted.catalog⟩

end LintConfig

/-! ## Chains -/

/-- The shape of a root chain, and nothing nested in it but extractors at hand and editors at hand
without issues. -/
structure ChainSpec.AtHand (s : ChainSpec) : Prop where
  shape : s.validate = .ok ()
  picks : ∀ t ∈ s.nested, ∃ x : ExtractorDef, t.extractor = some x.build
  edits : ∀ t ∈ s.nested, ∀ w, t.editor = some w →
    ∃ (v : EditorDef) (scope : Scope), w = v.build ∧ v.issues scope = []

namespace ChainSpec

theorem atHand_single (language : Language) : (single language).AtHand :=
  ⟨rfl, nofun, nofun⟩

theorem AtHand.reliable {s : ChainSpec} (h : s.AtHand) : s.Reliable := by
  refine ⟨h.shape, fun t ht => ⟨?_, fun w hw => ?_⟩⟩
  · obtain ⟨x, hx⟩ := h.picks t ht
    exact ⟨x.build, hx, x.picksNodes_build⟩
  · obtain ⟨v, scope, rfl, hv⟩ := h.edits t ht w hw
    exact EditorDef.total_build hv

theorem AtHand.blind {s : ChainSpec} (h : s.AtHand) : ∀ t ∈ s.nested, t.Blind := by
  intro t ht
  constructor
  · intro x hx
    obtain ⟨y, hy⟩ := h.picks t ht
    obtain rfl := Option.some.inj (hx.symm.trans hy)
    exact y.blind_build
  · intro w hw
    obtain ⟨v, -, rfl, -⟩ := h.edits t ht w hw
    exact v.blind_build

end ChainSpec

/-! ## Chains of a catalog -/

section Chains

variable {definitions : List ChainDefinition} {names : List String} {specs : List ChainSpec}

/-- The nested chains of an unfolding have the extractors and editors of definitions. -/
theorem Unfolds.of_mem_nestedAmong (h : Unfolds definitions names specs) :
    ∀ t ∈ ChainSpec.nestedAmong specs, ∃ d ∈ definitions, ∃ x : ExtractorDef,
      t.extractor = some x.build ∧ t.editor = d.edit.map (·.build) := by
  induction h with
  | nil => exact nofun
  | cons found extracted below behind ihbelow ihbehind =>
    refine List.forall_mem_cons.2 ⟨⟨_, (mem_of_find? found).1, _, rfl, rfl⟩, ?_⟩
    exact List.forall_mem_append.2 ⟨ihbelow, ihbehind⟩

/-- Where no definition has an issue, every chain that the catalog unfolds is put together from what
is at hand. -/
theorem Catalog.atHand_of_spec {nested : List String}
    (hissues : ∀ d ∈ definitions, d.issues nested = [])
    (hok : Catalog.ofDefinitions definitions = .ok ⟨definitions⟩) {name : String} {s : ChainSpec}
    (hs : Catalog.spec ⟨definitions⟩ name = .ok s) : s.AtHand := by
  obtain ⟨d, -, -, -, -, -, hunfolds⟩ :=
    Catalog.exists_of_spec_ok (Catalog.legal_of_ok hok).2 hs
  have hshape := hunfolds.validate
  obtain ⟨children, hchildren, rfl⟩ := hunfolds
  refine ⟨hshape, fun t ht => ?_, fun t ht w hw => ?_⟩
  · obtain ⟨e, -, x, hx, -⟩ := hchildren.of_mem_nestedAmong t ht
    exact ⟨x, hx⟩
  · obtain ⟨e, he, -, -, hedit⟩ := hchildren.of_mem_nestedAmong t ht
    rw [hedit] at hw
    obtain ⟨v, hv, rfl⟩ := Option.map_eq_some_iff.1 hw
    exact ⟨v, _, rfl, ChainDefinition.issues_edit (hissues e he) hv⟩

end Chains

end Polyglot
