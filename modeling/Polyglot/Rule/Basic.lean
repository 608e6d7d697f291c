import Polyglot.Rule.Run

/-!
# Rules

A rule chooses, for each file, the chain to parse it with, and then runs on the forest. A
file for which it chooses nothing is not parsed; the rule runs on an empty forest.
-/

set_option autoImplicit false

namespace Polyglot

/-- What a selector sees of a file before anything is parsed. -/
structure FileMeta where
  path : Path
  bytes : Bytes

/-- How a file is parsed: with one language or with a chain. -/
inductive Selection where
  | language (l : Language)
  | chain (spec : ChainSpec)

namespace Selection

/-- The chain that a selection stands for. -/
def spec : Selection → ChainSpec
  | .language l => ChainSpec.single l
  | .chain spec => spec

/-- The dump of a selection. -/
def dump : Selection → String
  | .language l => "Language(" ++ l.label ++ ")"
  | .chain spec => "Chain(" ++ spec.dump ++ ")"

end Selection

/-- How a rule chooses: by the extension of the file, one language or one chain for all, or
file by file. -/
inductive Selector where
  | detect
  | fixed (l : Language)
  | chain (spec : ChainSpec)
  | select (choose : FileMeta → Option Selection)

namespace Selector

/-- The choice for a file. -/
def selection (s : Selector) (file : FileMeta) : Option Selection :=
  match s with
  | .detect => (Language.ofPath? file.path).map .language
  | .fixed l => some (.language l)
  | .chain spec => some (.chain spec)
  | .select choose => choose file

/-- The dump of a selector. -/
def dump : Selector → String
  | .detect => "Detect"
  | .fixed l => "Fixed(" ++ l.label ++ ")"
  | .chain spec => "Chain(" ++ spec.entry.label ++ ")"
  | .select _ => "Select(..)"

/-- The kind of choice in one word. -/
def kind : Selector → String
  | .detect => "detect"
  | .fixed _ => "fixed"
  | .chain _ => "chain"
  | .select _ => "select"

end Selector

/-- Why a rule cannot be built or does not run to its end. -/
inductive RuleError where
  | missingRun (rule : String)
  | chain (rule : String) (cause : ChainError)
  | run (rule : String) (cause : RunFailure)
  | unreadable (path : Path) (cause : ReadFailure)
deriving DecidableEq, Repr

/-- The message for the error. -/
def RuleError.message : RuleError → String
  | .missingRun rule => "rule '" ++ rule ++ "' has no run function"
  | .chain rule cause => "rule '" ++ rule ++ "': " ++ cause.message
  | .run rule cause => "rule '" ++ rule ++ "' failed: " ++ cause.message
  | .unreadable path cause => "failed to read " ++ path.text ++ ": " ++ cause.message

/-- A rule. -/
structure Rule where
  name : String
  description : Option String
  selector : Selector
  run : RuleContext → RunM Unit

namespace Rule

/-- The dump of a rule. -/
def dump (r : Rule) : String :=
  "Rule \x7b name: " ++ Text.quoted r.name ++ ", description: " ++
    Text.optional (r.description.map Text.quoted) ++ ", selector: " ++ r.selector.dump ++
    ", .. \x7d"

/-- The forest that a rule runs on. -/
def forest (r : Rule) (tools : Toolchain) (path : Path) (bytes : Bytes) :
    Logged RuleError Forest :=
  match r.selector.selection ⟨path, bytes⟩ with
  | some choice => (ChainSpec.resolve tools.grammar bytes choice.spec).mapError (.chain r.name)
  | none => do
    Logged.debug (r.name ++ ": no language for " ++ path.text)
    return Forest.empty (Source.ofBytes bytes)

/-- The violations that a rule records on a file. Those of a run that fails are dropped. -/
def check (r : Rule) (tools : Toolchain) (path : Path) (bytes : Bytes) (w : Worker) :
    Except RuleError (List Violation) × Worker :=
  let outcome := r.forest tools path bytes
  let w := w.log outcome.records
  match outcome.result with
  | .error e => (.error e, w)
  | .ok forest =>
    let context : RuleContext := ⟨path.startingAt tools.directory, forest, tools.compiler⟩
    match (r.run context).run ⟨Recorder.empty forest.source, w⟩ with
    | (.ok (), s) => (.ok s.recorder.violations, s.worker)
    | (.error e, s) => (.error (.run r.name e), s.worker)

end Rule

/-- A rule that is being put together. -/
structure RuleBuilder where
  name : String
  description : Option String
  selector : Selector
  run : Option (RuleContext → RunM Unit)

namespace RuleBuilder

/-- A rule with nothing but a name; it detects the language of a file. -/
def new (name : String) : RuleBuilder :=
  ⟨name, none, .detect, none⟩

/-- The finished rule. It needs a run function, and a fixed chain has to be in shape. -/
def build (b : RuleBuilder) : Except RuleError Rule :=
  match b.run with
  | none => .error (.missingRun b.name)
  | some run =>
    match b.selector with
    | .chain spec =>
      match spec.validate with
      | .error e => .error (.chain b.name e)
      | .ok () => .ok ⟨b.name, b.description, b.selector, run⟩
    | _ => .ok ⟨b.name, b.description, b.selector, run⟩

end RuleBuilder

end Polyglot
