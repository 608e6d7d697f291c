import Polyglot.Config.Load

/-!
# Configured rules

A rule definition becomes a rule that runs its query over all trees of the target language
and reports every capture. The query is compiled once while the rule is built, so a mistake in
it is found before any file is checked.
-/

set_option autoImplicit false

namespace Polyglot

namespace RuleDefinition

/-- Files with one of some extensions are parsed with a chain; without extensions all are. -/
def chooseChain (extensions : List String) (spec : ChainSpec) (file : FileMeta) :
    Option Selection :=
  if extensions.isEmpty || file.path.extension?.any (listsExtension extensions) then
    some (.chain spec)
  else none

/-- Files whose extension suggests a language are parsed with it. -/
def chooseLanguage (l : Language) (file : FileMeta) : Option Selection :=
  if Language.ofPath? file.path = some l then some (.language l) else none

/-- How files are parsed, and the language that the query runs on. -/
def selection (catalog : Catalog) (d : RuleDefinition) :
    Except ConfigError ((FileMeta → Option Selection) × Language) :=
  match d.chain, d.lang with
  | some name, _ =>
    match catalog.spec name with
    | .error e => .error (.catalog none e)
    | .ok spec =>
      let extensions := ((catalog.get? name).map (·.extensions)).getD []
      .ok (chooseChain extensions spec, d.target.getD spec.entry)
  | none, some l => .ok (chooseLanguage l, d.target.getD l)
  | none, none => .error (.rule d.name "no chain or lang to parse files with")

/-- Reports every capture of a query in the trees of a language. -/
def report (target : Language) (text title : String) (c : RuleContext) : RunM Unit := do
  let found ← c.queryAll target text
  let _ ← RunM.recordMatches title found

/-- The rule of a definition. -/
def build (compiler : QueryCompiler) (catalog : Catalog) (d : RuleDefinition) :
    Except ConfigError Rule :=
  match d.selection catalog with
  | .error e => .error e
  | .ok (choose, target) =>
    match compiler target d.query with
    | .error message => .error (.query d.name (.invalidQuery target message))
    | .ok _ =>
      let run := report target d.query d.violationTitle
      (RuleBuilder.build ⟨d.name, d.description, .select choose, some run⟩).mapError
        fun e => .rule d.name e.message

end RuleDefinition

namespace LintConfig

/-- The rules of a configuration, in the order of their definitions. -/
def buildRules (compiler : QueryCompiler) (c : LintConfig) : Except ConfigError (List Rule) :=
  match Catalog.ofDefinitions c.chains with
  | .error e => .error (.catalog none e)
  | .ok catalog => c.rules.mapM (RuleDefinition.build compiler catalog)

end LintConfig

end Polyglot
