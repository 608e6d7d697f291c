import Polyglot.Command.Arguments
import Polyglot.Command.Discovery
import Polyglot.Command.Display
import Polyglot.Config.QueryRule

/-!
# Running a command

A command is run on a file tree and gives lines to print or a report, or fails with a message
and its causes. Which chain a file is parsed with is decided in this order: a language that is
given, a chain that is given, the root chain for the extension of the file, the language that
the extension suggests. Chains come from the configuration that is given, or the nearest one
above the file, or the standard one.
-/

set_option autoImplicit false

namespace Polyglot

/-- What commands work with. -/
structure Workbench where
  files : Files
  toml : TomlReader
  grammar : Grammar
  compiler : QueryCompiler
  pool : Pool

/-- Why a command fails: a message and what lies behind it, nearest first. -/
structure Failure where
  message : String
  causes : List String
deriving DecidableEq, Repr

namespace Failure

/-- A failure with nothing behind it. -/
def ofMessage (message : String) : Failure :=
  ⟨message, []⟩

/-- A text whose first line begins with `first` and every other line with `rest`. -/
def indented (first rest : String) (text : String) : String :=
  first ++ ("\n" ++ rest).intercalate (text.splitOn "\n")

/-- A cause with its number. -/
def numbered (cause : String × Nat) : String :=
  let number := toString cause.2
  let blanks := String.ofList (List.replicate (5 - number.length) ' ')
  indented (blanks ++ number ++ ": ") "       " cause.1

/-- The text for a failure. A single cause is not numbered. -/
def display (f : Failure) : String :=
  let causes := match f.causes with
    | [cause] => [indented "    " "    " cause]
    | causes => causes.zipIdx.map numbered
  Text.lines (("Error: " ++ f.message) ::
    if causes.isEmpty then [] else "" :: "Caused by:" :: causes)

/-- The failure of a configuration that cannot be used. -/
def ofConfig (e : ConfigError) : Failure :=
  ⟨e.message, e.cause?.toList⟩

/-- The failure of a chain that cannot be resolved. -/
def ofChain (e : ChainError) : Failure :=
  ⟨e.message, e.causes⟩

end Failure

/-- What a command gives. -/
inductive Outcome where
  | lines (lines : List String)
  | report (report : Report) (json : Bool)

/-- What the program prints, and its exit code. -/
structure Output where
  exit : Nat
  out : String
  err : String
deriving DecidableEq, Repr

namespace Outcome

/-- What is printed for an outcome that took some time. -/
def output (elapsed : Elapsed) : Outcome → Output
  | .lines found => ⟨0, Text.lines found, ""⟩
  | .report r true => ⟨r.exitCode, (r.data elapsed).pretty 0 ++ "\n", ""⟩
  | .report r false =>
    ⟨r.exitCode, Text.lines (r.display elapsed), Text.lines (r.files.flatMap FileReport.errorLines)⟩

end Outcome

/-- What is printed for a failure. -/
def Failure.output (f : Failure) : Output :=
  ⟨1, "", f.display⟩

namespace Workbench

/-- The path of the configuration to use: the given one, or the nearest one from a folder
upwards. -/
def configPath? (w : Workbench) (given : Option Path) (near : Path) : Option Path :=
  match given with
  | some p => some p
  | none =>
    let start := match w.files.realPath near with
      | .ok p => p
      | .error _ => near
    LintConfig.discover w.files start

/-- The configuration to use, if there is one. -/
def findConfig (w : Workbench) (given : Option Path) (near : Path) :
    Except Failure (Option LintConfig) :=
  match w.configPath? given near with
  | none => .ok none
  | some p =>
    ((LintConfig.loadFile w.toml w.files p).mapError Failure.ofConfig).map some

/-- The folder that a file is in. -/
def folderOf (file : Path) : Path :=
  match file.parent? with
  | some p => if p.text == "" then ⟨"."⟩ else p
  | none => ⟨"."⟩

/-- The chain of a catalog for a file, by name or by extension. -/
def chainIn (catalog : Catalog) (file : Path) (name : Option String) : Except Failure ChainSpec :=
  match name <|> (catalog.rootForPath? file).map (·.name) with
  | some name => (catalog.spec name).mapError fun e => .ofMessage e.message
  | none =>
    match Language.ofPath? file with
    | some l => .ok (ChainSpec.single l)
    | none => .error (.ofMessage ("no chain handles " ++ file.text ++ "; pass --chain or --lang"))

/-- The chain that a file is parsed with. -/
def chainFor (w : Workbench) (file : Path) (choice : ChainChoice) : Except Failure ChainSpec :=
  match choice.language with
  | some l => .ok (ChainSpec.single l)
  | none => do
    let config := (← w.findConfig choice.config (folderOf file)).getD LintConfig.standard
    let catalog ← (Catalog.ofDefinitions config.chains).mapError fun e => .ofMessage e.message
    chainIn catalog file choice.chain

/-- The forest of a file. -/
def resolve (w : Workbench) (file : Path) (choice : ChainChoice) : Except Failure Forest :=
  match w.files.read file with
  | .error e => .error ⟨"failed to read " ++ file.text, [e.message]⟩
  | .ok bytes => do
    let spec ← w.chainFor file choice
    (ChainSpec.resolve w.grammar bytes spec).result.mapError Failure.ofChain

/-- The matches of a query in a file. -/
def query (w : Workbench) (file : Path) (target : Language) (text : String)
    (choice : ChainChoice) : Except Failure (List QueryMatch) := do
  let forest ← w.resolve file choice
  (forest.queryAll w.compiler target text QueryCache.empty).1.mapError fun e =>
    .ofMessage e.message

/-- The report on the files that some arguments stand for. -/
def check (w : Workbench) (paths : List Path) (given : Option Path) (jobs : Option Nat) :
    Except Failure Report := do
  let directory := w.files.directoryPath
  match ← w.findConfig given directory with
  | none =>
    throw (.ofMessage ("no " ++ LintConfig.fileName ++ " found in " ++ directory.text ++
      " or its parents; pass --config"))
  | some config =>
    let rules ← (config.buildRules w.compiler).mapError Failure.ofConfig
    let catalog ← (Catalog.ofDefinitions config.chains).mapError fun e => .ofMessage e.message
    let paths := if paths.isEmpty then [⟨"."⟩] else paths
    let found ← (w.files.lintable catalog.extensions paths).mapError fun p =>
      .ofMessage (p.text ++ " does not exist")
    let settings := { config.engine with jobs := jobs.getD config.engine.jobs }
    let engine : Engine := ⟨rules, settings, ⟨w.grammar, w.compiler, directory⟩⟩
    return (engine.checkFiles w.pool w.files found Worker.fresh).1

/-- Runs a command. -/
def run (w : Workbench) : Command → Except Failure Outcome
  | .tree file choice nested => do
    return .lines ((← w.resolve file choice).order.flatMap (SyntaxTree.display nested))
  | .query file target text choice => do
    return .lines (QueryMatch.displayAll (← w.query file target text choice))
  | .check paths config json jobs => do
    return .report (← w.check paths config jobs) json

end Workbench

end Polyglot
