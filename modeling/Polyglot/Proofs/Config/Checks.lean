import Polyglot.Proofs.Chain.Bounds
import Polyglot.Proofs.Chain.Registration
import Polyglot.Proofs.Chain.Slices
import Polyglot.Proofs.Config.AtHand
import Polyglot.Proofs.Config.Selection
import Polyglot.Proofs.Rule.Runs

/-!
# Configurations that check every file

A rule of a configuration without issues checks every file (`check_of_checked`). Nothing that is
in a file can make it fail: the issues keep out an editor that has nothing to look for, the catalog
unfolds into chains that can be relied on, and the query was compiled when the rule was built, for
the language of the trees it runs on. Nothing is sliced out of bounds on the way, neither by the
resolver nor by the editors.
-/

set_option autoImplicit false

namespace Polyglot

/-! ## Queries -/

section Queries

variable {compiler : QueryCompiler} {l : Language} {text : String} {q : Query}

/-- A text that compiles gives a query, whatever the cache holds. -/
theorem QueryCache.exists_getOrCompile (h : compiler l text = .ok q) (cache : QueryCache) :
    ∃ shared cache', cache.getOrCompile compiler l text = (.ok shared, cache') := by
  unfold getOrCompile
  split
  · exact ⟨_, _, rfl⟩
  · rw [h]
    exact ⟨_, _, rfl⟩

/-- A query of a language finds its matches in the trees of the language. -/
theorem Forest.InStep.exists_queryAll {f : Forest} (hf : f.InStep) (h : compiler l text = .ok q)
    (cache : QueryCache) :
    ∃ found cache', f.queryAll compiler l text cache = (.ok found, cache') := by
  obtain ⟨shared, cache', hshared⟩ := QueryCache.exists_getOrCompile h cache
  refine ⟨(f.trees l).flatMap shared.query.results, cache', ?_⟩
  simp only [queryAll, hshared]
  rw [findInAll_of_language fun t ht => hf.language_of_mem ht]

/-- A report of a query that compiles ends well. -/
theorem RuleDefinition.exists_report {context : RuleContext} (hf : context.forest.InStep)
    (h : context.compiler l text = .ok q) (title : String) (s : RunState) :
    ∃ s', (report l text title context).run s = (.ok (), s') := by
  obtain ⟨found, cache', hfound⟩ := hf.exists_queryAll h s.worker.queries
  have hask := RunM.run_ask (context.forest.queryAll context.compiler l text) s
  rw [hfound] at hask
  unfold report RuleContext.queryAll
  rw [RunM.run_bind_of_ok hask]
  exact ⟨_, rfl⟩

end Queries

/-! ## Rules -/

/-- A rule that has a forest of a file and whose run on it ends well checks the file. -/
theorem Rule.exists_check {r : Rule} {tools : Toolchain} {path : Path} {bytes : Bytes}
    {forest : Forest} (hforest : (r.forest tools path bytes).result = .ok forest)
    (hrun : ∀ s, ∃ s', (r.run (context tools path forest)).run s = (.ok (), s')) (w : Worker) :
    ∃ violations w', r.check tools path bytes w = (.ok violations, w') := by
  obtain ⟨s', hs'⟩ := hrun (r.start tools path bytes forest w)
  refine ⟨s'.recorder.violations, s'.worker, ?_⟩
  rw [check_of_ok hforest, hs']

/-- A rule whose chains can be relied on has a forest of every file. -/
theorem Rule.exists_forest {r : Rule} {tools : Toolchain} (hgrammar : tools.grammar.Total)
    {path : Path} {bytes : Bytes}
    (hspec : ∀ choice, r.selector.selection ⟨path, bytes⟩ = some choice → choice.spec.Reliable) :
    ∃ forest, (r.forest tools path bytes).result = .ok forest ∧ forest.InStep := by
  cases hchoice : r.selector.selection ⟨path, bytes⟩ with
  | none => exact ⟨_, forest_of_none hchoice, Forest.inStep_empty _⟩
  | some choice =>
    obtain ⟨forest, hresolve⟩ := ChainSpec.exists_resolve hgrammar (hspec choice hchoice) bytes
    refine ⟨forest, ?_, inStep_of_resolve hresolve⟩
    rw [forest_of_some hchoice, hresolve]
    rfl

/-- A configuration that passes its checks has rules that check every file, whatever the worker has
done before. Where a chain is chosen for the file it resolves, also where each slice of a parent is
checked; all that is read of the trees lies in range; and the editors have an edit for every slice,
which is the same where each range that they take out of the slice, of what they splice and of what
they blank is checked. -/
theorem check_of_checked {tools : Toolchain} (hgrammar : tools.grammar.Total) {c : LintConfig}
    (hc : c.checked = .ok c) {rules : List Rule}
    (hrules : c.buildRules tools.compiler = .ok rules) :
    ∀ r ∈ rules, ∀ (path : Path) (bytes : Bytes),
      (∀ w, ∃ violations w', r.check tools path bytes w = (.ok violations, w')) ∧
      ∀ choice, r.selector.selection ⟨path, bytes⟩ = some choice →
        ∃ forest, (ChainSpec.resolve tools.grammar bytes choice.spec).result = .ok forest ∧
          (ChainSpec.Checked.resolve tools.grammar bytes choice.spec).result = .ok forest ∧
          (∀ t ∈ forest.order, t.InRange tools.grammar bytes choice.spec) ∧
          ∀ s ∈ choice.spec.nested, ∀ w, s.editor = some w → w.Total ∧
            ∃ d : EditorDef, w = d.build ∧
              ∀ slice parent, d.editBy .strict slice = .ok (w.edit slice parent) := by
  intro r hr path bytes
  obtain ⟨⟨nested, hissues⟩, hcatalog⟩ := LintConfig.of_checked hc
  have hbuild : c.rules.mapM (RuleDefinition.build tools.compiler ⟨c.chains⟩) = .ok rules := by
    unfold LintConfig.buildRules at hrules
    rwa [hcatalog] at hrules
  obtain ⟨d, -, hd⟩ := exists_of_mem_mapM hbuild r hr
  obtain ⟨choose, target, q, hselection, hq, hselector, hrun⟩ := RuleDefinition.build_ok hd
  have hatHand : ∀ choice, r.selector.selection ⟨path, bytes⟩ = some choice →
      choice.spec.AtHand := by
    intro choice hchoice
    rw [hselector] at hchoice
    rcases RuleDefinition.spec_of_selection hselection hchoice with ⟨name, hspec⟩ | ⟨l, hl⟩
    · exact Catalog.atHand_of_spec hissues hcatalog hspec
    · rw [hl]
      exact ChainSpec.atHand_single l
  constructor
  · obtain ⟨forest, hforest, hstep⟩ := Rule.exists_forest hgrammar fun choice hchoice =>
      (hatHand choice hchoice).reliable
    apply Rule.exists_check hforest
    intro s
    rw [hrun]
    exact RuleDefinition.exists_report hstep hq _ s
  · intro choice hchoice
    have hspec := (hatHand choice hchoice).reliable
    obtain ⟨forest, hresolve⟩ := ChainSpec.exists_resolve hgrammar hspec bytes
    refine ⟨forest, hresolve, ?_, hspec.inRange hgrammar hresolve, ?_⟩
    · rw [ChainSpec.Checked.resolve_eq, Logged.mapError, hresolve]
      rfl
    · intro s hs w hw
      obtain ⟨d, -, hd, -⟩ := (hatHand choice hchoice).edits s hs w hw
      refine ⟨(hspec.nested s hs).edits w hw, d, hd, fun slice parent => ?_⟩
      rw [hd]
      exact EditorDef.editBy_eq Bounds.admits_strict d slice parent

namespace Sample

/-- Pages with code in them, in which regions are blanked, and a rule on the code. -/
def linted : LintConfig :=
  ⟨EngineSettings.standard,
    [⟨"page", .html, ["html"], ["code"], none, none⟩,
      ⟨"code", .javaScript, [], [], some (.kinds ["item"] []), some (.blankDelimited "<!" "!>")⟩],
    [⟨"no-item", none, some "page", none, some .javaScript, "(item) @item", none⟩]⟩

theorem checked_linted : linted.checked = .ok linted := by decide +kernel

theorem buildRules_linted :
    ∃ r, linted.buildRules tools.compiler = .ok [r] ∧
      ∃ choice, r.selector.selection ⟨⟨"a.html"⟩, Bytes.ofString "a<!b"⟩ = some choice ∧
        ∃ s w, choice.spec.nested = [s] ∧ s.editor = some w := by
  have hcatalog : Catalog.ofDefinitions linted.chains = .ok ⟨linted.chains⟩ := by decide +kernel
  unfold LintConfig.buildRules
  rw [hcatalog]
  exact ⟨_, rfl, _, rfl, _, _, rfl, rfl⟩

end Sample

/-- The rule on the code checks a page in which a region is not closed, and what is blanked there
lies in the code. -/
theorem check_linted :
    (Sample.tools.grammar.Total ∧ Sample.linted.checked = .ok Sample.linted) ∧
    ∃ r, Sample.linted.buildRules Sample.tools.compiler = .ok [r] ∧
      (∀ w, ∃ violations w', r.check Sample.tools ⟨"a.html"⟩ (Bytes.ofString "a<!b") w =
        (.ok violations, w')) ∧
      ∃ choice forest, r.selector.selection ⟨⟨"a.html"⟩, Bytes.ofString "a<!b"⟩ = some choice ∧
        (ChainSpec.resolve Sample.tools.grammar (Bytes.ofString "a<!b") choice.spec).result =
          .ok forest ∧
        (∀ t ∈ forest.order,
          t.InRange Sample.tools.grammar (Bytes.ofString "a<!b") choice.spec) ∧
        ∃ s w, choice.spec.nested = [s] ∧ s.editor = some w ∧
          ∃ d : EditorDef, w = d.build ∧ ∀ parent,
            d.editBy .strict (Bytes.ofString "a<!b") =
              .ok (w.edit (Bytes.ofString "a<!b") parent) := by
  obtain ⟨r, hrules, choice, hchoice, s, w, hnested, hw⟩ := Sample.buildRules_linted
  obtain ⟨hcheck, hchain⟩ := check_of_checked Sample.total_grammar Sample.checked_linted hrules r
    List.mem_cons_self ⟨"a.html"⟩ (Bytes.ofString "a<!b")
  obtain ⟨forest, hresolve, -, hrange, hedits⟩ := hchain choice hchoice
  have hs : s ∈ choice.spec.nested := by rw [hnested]; exact List.mem_cons_self
  obtain ⟨-, d, hd, hbounds⟩ := hedits s hs w hw
  exact ⟨⟨Sample.total_grammar, Sample.checked_linted⟩, r, hrules, hcheck, choice, forest, hchoice,
    hresolve, hrange, s, w, hnested, hw, d, hd, hbounds _⟩

end Polyglot
