import Polyglot.Chain.Resolve
import Polyglot.Files
import Polyglot.Rule.Violation

/-!
# Running a rule

What a rule can see of a file is its path and its forest. A run may record violations and ask
queries, which go through the cache of the worker that runs it, and may fail.
-/

set_option autoImplicit false

namespace Polyglot

/-- The parsers and the query compiler that all work is done with, and the folder that
relative paths start from. -/
structure Toolchain where
  grammar : Grammar
  compiler : QueryCompiler
  directory : Path

/-- What a worker carries along from rule to rule and from file to file: its compiled queries
and the log, oldest record first. -/
structure Worker where
  queries : QueryCache
  records : List Record

namespace Worker

/-- A worker that has done nothing yet. -/
def fresh : Worker :=
  ⟨QueryCache.empty, []⟩

/-- Adds records to the log. -/
def log (w : Worker) (records : List Record) : Worker :=
  { w with records := w.records ++ records }

end Worker

/-- Why a run fails. -/
inductive RunFailure where
  | query (cause : SyntaxError)
  | custom (message : String)
deriving DecidableEq, Repr

/-- The message for a failed run. -/
def RunFailure.message : RunFailure → String
  | .query e => e.message
  | .custom text => text

/-- What a rule sees of one file. The path starts at the root. -/
structure RuleContext where
  path : Path
  forest : Forest
  compiler : QueryCompiler

/-- What changes during a run. -/
structure RunState where
  recorder : Recorder
  worker : Worker

/-- A step of a run. -/
abbrev RunM := ExceptT RunFailure (StateM RunState)

namespace RunM

/-- Makes a failed query fail the run. -/
def ofSyntax {α : Type} : Except SyntaxError α → RunM α
  | .ok a => pure a
  | .error e => throw (.query e)

/-- Records a violation without a place. -/
def violation (title : String) : RunM Handle := do
  let s ← get
  let (handle, recorder) := s.recorder.record title
  set { s with recorder }
  return handle

/-- Puts a recorded violation at the range between two offsets. -/
def setRange (h : Handle) (a b : Nat) : RunM Unit :=
  modify fun s =>
    { s with
      recorder := s.recorder.setRange h a b
      worker := s.worker.log (Recorder.rangeWarnings s.recorder.source.length a b) }

/-- Records a violation for every capture of some matches. -/
def recordMatches (title : String) (matched : List QueryMatch) : RunM Nat := do
  let s ← get
  let (count, recorder) := s.recorder.recordMatches title matched
  set { s with recorder }
  return count

/-- The violations recorded so far. -/
def recorded : RunM (List Violation) := do
  return (← get).recorder.violations

/-- Asks a question that goes through the worker's cache. -/
def ask {α : Type} (question : QueryCache → Except SyntaxError α × QueryCache) : RunM α := do
  let s ← get
  let (answer, queries) := question s.worker.queries
  set { s with worker := { s.worker with queries } }
  ofSyntax answer

end RunM

namespace RuleContext

/-- The matches of a query text in the first tree of a language. -/
def query (c : RuleContext) (l : Language) (text : String) : RunM (List QueryMatch) :=
  RunM.ask (c.forest.query c.compiler l text)

/-- The matches of a query text in all trees of a language. -/
def queryAll (c : RuleContext) (l : Language) (text : String) : RunM (List QueryMatch) :=
  RunM.ask (c.forest.queryAll c.compiler l text)

/-- The first tree of a language. -/
def getSyntax (c : RuleContext) (l : Language) : RunM SyntaxTree :=
  RunM.ofSyntax (c.forest.getSyntax l)

end RuleContext

end Polyglot
