import Polyglot.Proofs.Chain.Places
import Polyglot.Proofs.Config.AtHand

/-!
# Chains that do not interfere

Two chains with the same root, both put together from what is at hand, resolve every file. What
each registers is what it places below the tree of the file, in the order of the places, and at a
place that is kept from the one chain to the other the two have the same tree
(`placed_of_checked`). So a chain of a configuration can have its nested chains put in another
order, removed, or others added, at any depth: the trees of all other chains stay as they are,
those of one chain below one parent in their order, and only the numbers of occurrence and the
places among the trees of other chains change.
-/

set_option autoImplicit false

namespace Polyglot

/-- A chain of a checked configuration and one that is made of it resolve every file. Apart from the
numbers of occurrence their trees are those that the chains place below the tree of the file, in the
order of the places, and the two have the same trees wherever a place is kept. Of the chains that
stay, within both, every tree stands at such a place. -/
theorem LintConfig.placed_of_checked {c : LintConfig} (hc : c.checked = .ok c) {name : String}
    {spec spec' : ChainSpec} (hspec : Catalog.spec ⟨c.chains⟩ name = .ok spec)
    (hspec' : spec'.AtHand) (hentry : spec.entry = spec'.entry) {grammar : Grammar}
    (hgrammar : grammar.Total) (buffer : Bytes) :
    ∃ root forest forest',
      ChainSpec.parseRegion grammar spec.entry 0 buffer (OffsetMap.identity buffer.length)
        (Source.ofBytes buffer) = .ok root ∧
      (ChainSpec.resolve grammar buffer spec).result = .ok forest ∧
      (ChainSpec.resolve grammar buffer spec').result = .ok forest' ∧
      forest.unnumbered = (spec.placed grammar root).map (·.2) ∧
      forest'.unnumbered = (spec'.placed grammar root).map (·.2) ∧
      (spec.placed grammar root).Pairwise (fun e e' => e.1.Before e'.1) ∧
      (spec'.placed grammar root).Pairwise (fun e e' => e.1.Before e'.1) ∧
      (∀ place place', ChainSpec.Kept spec spec' place place' →
        ∀ t, (place, t) ∈ spec.placed grammar root ↔ (place', t) ∈ spec'.placed grammar root) ∧
      ∀ stays : ChainSpec, stays.Within spec → stays.Within spec' →
        ∀ place t, (place, t) ∈ stays.placed grammar root →
          ∃ p p', ChainSpec.Kept spec spec' p p' ∧ (p, t) ∈ spec.placed grammar root := by
  obtain ⟨⟨nested, hissues⟩, hcatalog⟩ := LintConfig.of_checked hc
  have hatHand := Catalog.atHand_of_spec hissues hcatalog hspec
  obtain ⟨forest, hforest⟩ := ChainSpec.exists_resolve hgrammar hatHand.reliable buffer
  obtain ⟨forest', hforest'⟩ := ChainSpec.exists_resolve hgrammar hspec'.reliable buffer
  obtain ⟨root, hroot, htrees⟩ := ChainSpec.unnumbered_of_resolve hatHand.blind hforest
  obtain ⟨root', hroot', htrees'⟩ := ChainSpec.unnumbered_of_resolve hspec'.blind hforest'
  rw [← hentry] at hroot'
  obtain rfl := Except.ok.inj (hroot.symm.trans hroot')
  refine ⟨root, forest, forest', hroot, hforest, hforest', htrees, htrees', ?_, ?_, ?_, ?_⟩
  · exact ChainSpec.pairwise_placed grammar root spec
  · exact ChainSpec.pairwise_placed grammar root spec'
  · intro place place' hkept t
    exact hkept.mem_placed root t
  · intro stays hstays hstays' place t hplace
    exact hstays.exists_between hstays' hplace

namespace Sample

/-- Pages with code, style sheets and data, and style sheets in the code. -/
def shelf : LintConfig :=
  ⟨EngineSettings.standard,
    [⟨"page", .html, ["html"], ["code", "style", "data"], none, none⟩,
      ⟨"code", .javaScript, [], ["style"], some (.kinds ["item"] []), some .stripCommentWrapper⟩,
      ⟨"style", .css, [], [], some (.kinds ["item"] []), some (.wrap "a" "b")⟩,
      ⟨"data", .json, [], [], some (.kinds ["item"] []), none⟩],
    []⟩

/-- A nested chain that takes the items. -/
def itemSpec (entry : Language) (children : List ChainSpec) (editor : Option EditorDef) :
    ChainSpec :=
  .mk entry children (some (ExtractorDef.build (.kinds ["item"] [])))
    (editor.map EditorDef.build)

/-- The style sheets. -/
def styleSpec : ChainSpec :=
  itemSpec .css [] (some (.wrap "a" "b"))

/-- The data. -/
def dataSpec : ChainSpec :=
  itemSpec .json [] none

/-- The code with some chains nested in it. -/
def codeSpec (children : List ChainSpec) : ChainSpec :=
  itemSpec .javaScript children (some .stripCommentWrapper)

/-- The pages. -/
def shelfSpec : ChainSpec :=
  .mk .html [codeSpec [styleSpec], styleSpec, dataSpec] none none

/-- The pages with their style sheets before the code and without data, which stands in the code
before the style sheets. -/
def reshelvedSpec : ChainSpec :=
  .mk .html [styleSpec, codeSpec [dataSpec, styleSpec]] none none

/-- What stays of the pages. -/
def stayingSpec : ChainSpec :=
  .mk .html [codeSpec [styleSpec], styleSpec] none none

theorem within_shelf : stayingSpec.Within shelfSpec :=
  .of_subset (by simp) none none

theorem within_reshelved : stayingSpec.Within reshelvedSpec := by
  have hcode : (codeSpec [styleSpec]).Within (codeSpec [dataSpec, styleSpec]) :=
    .of_subset (by simp) _ _
  apply ChainSpec.Within.mk fun c =>
    if c.entry = .javaScript then codeSpec [dataSpec, styleSpec] else styleSpec
  · intro c hc
    rcases List.mem_pair.1 hc with rfl | rfl
    · exact List.mem_cons_of_mem _ List.mem_cons_self
    · exact List.mem_cons_self
  · intro c hc
    rcases List.mem_pair.1 hc with rfl | rfl
    · exact hcode
    · exact .refl _

theorem checked_shelf : shelf.checked = .ok shelf := by decide +kernel

theorem spec_shelf : Catalog.spec ⟨shelf.chains⟩ "page" = .ok shelfSpec := rfl

theorem atHand_reshelved : reshelvedSpec.AtHand := by
  have hnested : ∀ t ∈ reshelvedSpec.nested,
      t = styleSpec ∨ t = codeSpec [dataSpec, styleSpec] ∨ t = dataSpec := by
    simp [reshelvedSpec, ChainSpec.nested, ChainSpec.nestedAmong, codeSpec, styleSpec, dataSpec,
      itemSpec]
  refine ⟨rfl, fun t ht => ?_, fun t ht w hw => ?_⟩
  · rcases hnested t ht with rfl | rfl | rfl <;> exact ⟨_, rfl⟩
  · rcases hnested t ht with rfl | rfl | rfl
    · exact ⟨.wrap "a" "b", .chain "style", (Option.some.inj hw).symm, rfl⟩
    · exact ⟨.stripCommentWrapper, .chain "code", (Option.some.inj hw).symm, rfl⟩
    · cases hw

theorem kept_reshelved : ChainSpec.Kept shelfSpec reshelvedSpec [(0, 0), (0, 0)] [(1, 0), (1, 0)] :=
  .step 0 rfl rfl ⟨rfl, rfl, rfl⟩ (.step 0 rfl rfl ⟨rfl, rfl, rfl⟩ .here)

end Sample

/-- The style sheet in the code is the first one of the page, and with the chains of the page put in
another order the second; otherwise it is the same tree. -/
theorem LintConfig.placed_shelf :
    (Sample.shelf.checked = .ok Sample.shelf ∧
      Catalog.spec ⟨Sample.shelf.chains⟩ "page" = .ok Sample.shelfSpec ∧
      Sample.reshelvedSpec.AtHand ∧ Sample.shelfSpec.entry = Sample.reshelvedSpec.entry ∧
      Sample.grammar.Total ∧ Sample.stayingSpec.Within Sample.shelfSpec ∧
      Sample.stayingSpec.Within Sample.reshelvedSpec) ∧
    ∃ t root forest forest',
      ([(0, 0), (0, 0)], t) ∈ Sample.shelfSpec.placed Sample.grammar root ∧
      ([(1, 0), (1, 0)], t) ∈ Sample.reshelvedSpec.placed Sample.grammar root ∧
      (ChainSpec.resolve Sample.grammar (Bytes.ofString "ab") Sample.shelfSpec).result =
        .ok forest ∧
      (ChainSpec.resolve Sample.grammar (Bytes.ofString "ab") Sample.reshelvedSpec).result =
        .ok forest' ∧
      forest.order.map (fun t => (t.language, t.occurrence)) =
        [(.html, 0), (.javaScript, 0), (.css, 0), (.css, 1), (.json, 0)] ∧
      forest'.order.map (fun t => (t.language, t.occurrence)) =
        [(.html, 0), (.css, 0), (.javaScript, 0), (.json, 0), (.css, 1)] := by
  refine ⟨⟨Sample.checked_shelf, Sample.spec_shelf, Sample.atHand_reshelved, rfl,
    Sample.total_grammar, Sample.within_shelf, Sample.within_reshelved⟩, ?_⟩
  obtain ⟨root, forest, forest', hroot, hforest, hforest', -, -, -, -, hkept, -⟩ :=
    placed_of_checked Sample.checked_shelf Sample.spec_shelf Sample.atHand_reshelved rfl
      Sample.total_grammar (Bytes.ofString "ab")
  obtain ⟨t, ht⟩ : ∃ t, ([(0, 0), (0, 0)], t) ∈ Sample.shelfSpec.placed Sample.grammar root := by
    obtain rfl := Except.ok.inj (show Except.ok _ = Except.ok root from hroot)
    exact ⟨_, ChainSpec.mem_placed_cons.2 ⟨_, _, rfl, rfl,
      ChainSpec.mem_placed_cons.2 ⟨_, _, rfl, rfl, ChainSpec.mem_placed_nil.2 rfl⟩⟩⟩
  refine ⟨t, root, forest, forest', ht, (hkept _ _ Sample.kept_reshelved t).1 ht, hforest, hforest',
    ?_, ?_⟩
  · have horder : (ChainSpec.resolve Sample.grammar (Bytes.ofString "ab")
        Sample.shelfSpec).result.toOption.map (fun f => f.order.map fun t =>
          (t.language, t.occurrence)) =
        some [(.html, 0), (.javaScript, 0), (.css, 0), (.css, 1), (.json, 0)] := by decide +kernel
    rw [hforest] at horder
    exact Option.some.inj horder
  · have horder : (ChainSpec.resolve Sample.grammar (Bytes.ofString "ab")
        Sample.reshelvedSpec).result.toOption.map (fun f => f.order.map fun t =>
          (t.language, t.occurrence)) =
        some [(.html, 0), (.css, 0), (.javaScript, 0), (.json, 0), (.css, 1)] := by decide +kernel
    rw [hforest'] at horder
    exact Option.some.inj horder

end Polyglot
