import Polyglot.Config.Definition

/-!
# Issues of a configuration

What is wrong with each definition taken for itself, or with its name among the others.
`issues` lists all of it in the order of the definitions, so one run shows everything.
-/

set_option autoImplicit false

namespace Polyglot

/-- The definition that an issue is about. -/
inductive Scope where
  | chain (name : String)
  | rule (name : String)
deriving DecidableEq, Repr

namespace Scope

/-- The definition in words. -/
def text : Scope → String
  | .chain name => if name == "" then "chain" else "chain '" ++ name ++ "'"
  | .rule name => if name == "" then "rule" else "rule '" ++ name ++ "'"

/-- The dump of a scope. -/
def dump : Scope → String
  | .chain name => "Chain(" ++ Text.quoted name ++ ")"
  | .rule name => "Rule(" ++ Text.quoted name ++ ")"

end Scope

/-- Something wrong with a configuration. -/
inductive Issue where
  | emptyConfig
  | missingField (scope : Scope) (field : String)
  | duplicate (scope : Scope)
  | invalidCombo (scope : Scope) (message : String)
deriving DecidableEq, Repr

namespace Issue

/-- The message for the issue. -/
def message : Issue → String
  | .emptyConfig => "config defines no chains and no rules"
  | .missingField scope field => scope.text ++ " missing required field '" ++ field ++ "'"
  | .duplicate scope => scope.text ++ " is defined more than once"
  | .invalidCombo scope text => scope.text ++ " has invalid configuration: " ++ text

/-- The dump of the issue. -/
def dump : Issue → String
  | .emptyConfig => "EmptyConfig"
  | .missingField scope field =>
    "MissingField \x7b scope: " ++ scope.dump ++ ", field: " ++ Text.quoted field ++ " \x7d"
  | .duplicate scope => "Duplicate \x7b scope: " ++ scope.dump ++ " \x7d"
  | .invalidCombo scope text =>
    "InvalidCombo \x7b scope: " ++ scope.dump ++ ", message: " ++ Text.quoted text ++ " \x7d"

end Issue

/-- What is wrong with the settings of an extractor. -/
def ExtractorDef.issues (scope : Scope) : ExtractorDef → List Issue
  | .htmlAttribute name =>
    if Text.isBlankText name then [.missingField scope "extract.name"] else []
  | .kinds wanted _ => if wanted.isEmpty then [.missingField scope "extract.kinds"] else []
  | _ => []

/-- What is wrong with the settings of an editor. -/
def EditorDef.issues (scope : Scope) : EditorDef → List Issue
  | .wrap before behind =>
    if before == "" && behind == "" then
      [.invalidCombo scope "wrap needs a prefix or a suffix"]
    else []
  | .blankDelimited opening closing =>
    (if opening == "" then [.missingField scope "rewrite.open"] else []) ++
      (if closing == "" then [.missingField scope "rewrite.close"] else [])
  | .stripCommentWrapper => []

/-- What is wrong with a chain definition, its name apart. `nested` holds the names that are
listed as children somewhere. -/
def ChainDefinition.issues (nested : List String) (d : ChainDefinition) : List Issue :=
  let scope := Scope.chain d.name
  (if !d.extensions.isEmpty && d.extract.isSome then
    [.invalidCombo scope "a root chain (with extensions) cannot declare an extractor"]
  else []) ++
    (if nested.contains d.name && d.extract.isNone then [.missingField scope "extract"] else []) ++
    ((d.extract.map (ExtractorDef.issues scope)).getD []) ++
    ((d.edit.map (EditorDef.issues scope)).getD [])

/-- What is wrong with a rule definition, its name apart. -/
def RuleDefinition.issues (d : RuleDefinition) : List Issue :=
  let scope := Scope.rule d.name
  (match d.chain, d.lang with
    | some _, some _ => [.invalidCombo scope "set either `chain` or `lang`, not both"]
    | none, none => [.missingField scope "chain"]
    | _, _ => []) ++
    (if Text.isBlankText d.query then [.missingField scope "query"] else []) ++
    (match d.lang, d.target with
    | some lang, some target =>
      if lang = target then []
      else
        [.invalidCombo scope
          ("target " ++ target.name ++ " is never parsed by a " ++ lang.name ++ " rule")]
    | _, _ => [])

namespace LintConfig

/-- The issues of chain definitions when some names are `taken`. A second definition of a name
is not looked at further. -/
def chainIssues (nested : List String) : List String → List ChainDefinition → List Issue
  | _, [] => []
  | taken, d :: rest =>
    if Text.isBlankText d.name then
      .missingField (.chain "") "name" :: d.issues nested ++ chainIssues nested taken rest
    else if taken.contains d.name then
      .duplicate (.chain d.name) :: chainIssues nested taken rest
    else d.issues nested ++ chainIssues nested (d.name :: taken) rest

/-- The issues of rule definitions when some names are `taken`. -/
def ruleIssues : List String → List RuleDefinition → List Issue
  | _, [] => []
  | taken, d :: rest =>
    (if Text.isBlankText d.name then [.missingField (.rule "") "name"]
    else if taken.contains d.name then [.duplicate (.rule d.name)]
    else []) ++ d.issues ++
      ruleIssues (if Text.isBlankText d.name then taken else d.name :: taken) rest

/-- Everything that is wrong with the definitions. -/
def issues (c : LintConfig) : List Issue :=
  (if c.chains.isEmpty && c.rules.isEmpty then [.emptyConfig] else []) ++
    chainIssues (c.chains.flatMap (·.children)) [] c.chains ++ ruleIssues [] c.rules

end LintConfig

end Polyglot
