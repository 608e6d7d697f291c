import Polyglot.Config.Catalog
import Polyglot.Config.Issue
import Polyglot.Config.Shape

/-!
# Loading a configuration

A configuration is a TOML text. It is read, then checked definition by definition, then its
chains are catalogued, and last every rule has to name a chain that is defined. The error of
a configuration that was read from a file names the file.
-/

set_option autoImplicit false

namespace Polyglot

/-- Reads a TOML text; a malformed one gives nothing. -/
abbrev TomlReader := String → Option Data

/-- Why a text is not a configuration: it is malformed, or not of the right shape. -/
inductive TomlError where
  | malformed
  | shape (cause : ShapeError)
deriving DecidableEq, Repr

/-- The message for the error. -/
def TomlError.message : TomlError → String
  | .malformed => "TOML parse error"
  | .shape cause => "TOML parse error: " ++ cause.message

/-- Why a configuration cannot be used. -/
inductive ConfigError where
  | unreadable (path : Path) (cause : ReadFailure)
  | toml (path : Option Path) (cause : TomlError)
  | validation (path : Option Path) (issues : List Issue)
  | catalog (path : Option Path) (cause : CatalogError)
  | query (name : String) (cause : SyntaxError)
  | rule (name message : String)
deriving DecidableEq, Repr

namespace ConfigError

/-- The messages of some issues, a line each. -/
def issueLines (issues : List Issue) : String :=
  "\n".intercalate (issues.map (·.message))

/-- A path in parentheses, if there is one. -/
def mention : Option Path → String
  | none => ""
  | some p => " (" ++ p.text ++ ")"

/-- The message of what lies behind the error. -/
def cause? : ConfigError → Option String
  | .unreadable _ cause => some cause.message
  | .toml _ cause => some cause.message
  | .validation _ issues => some (issueLines issues)
  | .catalog _ cause => some cause.message
  | .query _ cause => some cause.message
  | .rule _ _ => none

/-- The message for the error. -/
def message : ConfigError → String
  | .unreadable path cause => "failed to read config from " ++ path.text ++ ": " ++ cause.message
  | .toml path cause => "failed to parse config TOML" ++ mention path ++ ": " ++ cause.message
  | .validation path issues => "invalid config" ++ mention path ++ ": " ++ issueLines issues
  | .catalog path cause => "invalid chains" ++ mention path ++ ": " ++ cause.message
  | .query name cause => "rule '" ++ name ++ "': " ++ cause.message
  | .rule name text => "rule '" ++ name ++ "': " ++ text

/-- The error of a text that was read from a file. -/
def withPath (path : Path) : ConfigError → ConfigError
  | .toml none cause => .toml (some path) cause
  | .validation none issues => .validation (some path) issues
  | .catalog none cause => .catalog (some path) cause
  | e => e

end ConfigError

namespace LintConfig

/-- The first rule that names a chain which is not defined: the chain and the rule. -/
def undefinedChain? (c : LintConfig) (catalog : Catalog) : Option (String × String) :=
  c.rules.findSome? fun r =>
    match r.chain with
    | none => none
    | some name => if (catalog.get? name).isSome then none else some (name, r.name)

/-- The configuration, if nothing is wrong with it. -/
def checked (c : LintConfig) : Except ConfigError LintConfig :=
  if !c.issues.isEmpty then .error (.validation none c.issues)
  else
    match Catalog.ofDefinitions c.chains with
    | .error e => .error (.catalog none e)
    | .ok catalog =>
      match c.undefinedChain? catalog with
      | some (name, rule) =>
        .error (.catalog none (.unknownChain name ("rule '" ++ rule ++ "'")))
      | none => .ok c

/-- The configuration in a text. -/
def load (reader : TomlReader) (text : String) : Except ConfigError LintConfig :=
  match reader text with
  | none => .error (.toml none .malformed)
  | some d =>
    match ofData .skipped d with
    | .error e => .error (.toml none (.shape e))
    | .ok c => c.checked

/-- The configuration in a file. -/
def loadFile (reader : TomlReader) (files : Files) (path : Path) : Except ConfigError LintConfig :=
  match files.readText path with
  | .error e => .error (.unreadable path e)
  | .ok text => (load reader text).mapError (ConfigError.withPath path)

/-- The name of a configuration file. -/
def fileName : String :=
  "chainlint.toml"

/-- The nearest configuration file, in a folder or in one above it. -/
def discover (files : Files) (start : Path) : Option Path :=
  (start.ancestors.map fun p => p.join fileName).find? files.hasFile

end LintConfig

end Polyglot
