import Polyglot.Data
import Polyglot.Rule.Basic

/-!
# The engine

The engine runs every rule over every file, each on a forest of its own. What a rule cannot
do is part of the report on the file, and so is a file that cannot be read; nothing stops the
other rules or the other files.

Several files are shared out among the threads of a pool, each with a worker of its own; where the
settings say so or no pool can be started, they are checked one after the other. The reports come in
the order of the files.
-/

set_option autoImplicit false

namespace Polyglot

/-- Whether files are checked in parallel, and by how many threads; 0 leaves their number to the
pool. -/
structure EngineSettings where
  parallel : Bool
  jobs : Nat
deriving DecidableEq, Repr

/-- Files are checked in parallel, with as many jobs as there are processors. -/
def EngineSettings.standard : EngineSettings :=
  ⟨true, 0⟩

/-- What one rule gave for one file. With an error there are no violations. -/
structure RuleOutcome where
  rule : String
  violations : List Violation
  error : Option RuleError
deriving DecidableEq, Repr

/-- Whether the rule found something or could not run. -/
def RuleOutcome.isFailed (o : RuleOutcome) : Bool :=
  o.error.isSome || !o.violations.isEmpty

/-- What the rules gave for one file, or why it could not be read. -/
structure FileReport where
  path : Path
  outcomes : List RuleOutcome
  error : Option RuleError
deriving DecidableEq, Repr

namespace FileReport

/-- Whether the file could not be read or some rule failed on it. -/
def isFailed (r : FileReport) : Bool :=
  r.error.isSome || r.outcomes.any RuleOutcome.isFailed

/-- The number of violations in the file. -/
def violationCount (r : FileReport) : Nat :=
  r.outcomes.foldr (fun o n => o.violations.length + n) 0

/-- The number of errors with the file. -/
def errorCount (r : FileReport) : Nat :=
  (if r.error.isSome then 1 else 0) + r.outcomes.countP fun o => o.error.isSome

end FileReport

/-- The reports on some files, in the order of the files. -/
structure Report where
  files : List FileReport
deriving DecidableEq, Repr

namespace Report

/-- The reports on files with something wrong. -/
def failedFiles (r : Report) : List FileReport :=
  r.files.filter FileReport.isFailed

/-- The number of violations. -/
def violationCount (r : Report) : Nat :=
  r.files.foldr (fun f n => f.violationCount + n) 0

/-- The number of errors. -/
def errorCount (r : Report) : Nat :=
  r.files.foldr (fun f n => f.errorCount + n) 0

/-- Whether nothing is wrong with any file. -/
def isClean (r : Report) : Bool :=
  r.failedFiles.isEmpty

/-- The exit code of a program that made the report. -/
def exitCode (r : Report) : Nat :=
  if r.isClean then 0 else 1

end Report

/-- A point as a document. -/
def Point.data (p : Point) : Data :=
  .ofMembers [("row", .natural p.row), ("column", .natural p.column)]

/-- A location as a document. -/
def Location.data (l : Location) : Data :=
  .ofMembers [("start_index", .natural l.start), ("end_index", .natural l.stop),
    ("start_position", l.startPoint.data), ("end_position", l.stopPoint.data)]

/-- A violation as a document. -/
def Violation.data (v : Violation) : Data :=
  .ofMembers [("title", .text v.title), ("range", .optional Location.data v.location)]

/-- An error as a document: its message. -/
def RuleError.data (e : RuleError) : Data :=
  .text e.message

/-- The outcome of a rule as a document. -/
def RuleOutcome.data (o : RuleOutcome) : Data :=
  .ofMembers [("rule", .text o.rule), ("violations", .list (o.violations.map Violation.data)),
    ("error", .optional RuleError.data o.error)]

/-- The report on a file as a document. -/
def FileReport.data (r : FileReport) : Data :=
  .ofMembers [("path", .text r.path.text), ("outcomes", .list (r.outcomes.map RuleOutcome.data)),
    ("error", .optional RuleError.data r.error)]

/-- How threads share out `n` files: who takes which file, turn by turn. Every file is taken once.
Threads have nothing in common, so what they do at the same time is told one after the other. -/
structure Schedule (threads n : Nat) where
  turns : List (Fin n × Fin threads)
  once : (turns.map (·.1)).Perm (List.finRange n)

/-- What starts threads, or says why it cannot: as many as are asked for, or `standard` ones. -/
structure Pool where
  standard : Nat
  start : (threads : Nat) → Except String ((n : Nat) → Schedule threads n)

/-- The threads take the files by turns. -/
def Schedule.rounds (threads n : Nat) : Schedule (threads + 1) n where
  turns := (List.finRange n).map fun i =>
    (i, ⟨i.val % (threads + 1), Nat.mod_lt i.val (Nat.succ_pos threads)⟩)
  once := by simp [Function.comp_def]

/-- The pool in which they do so. -/
def Pool.rounds (standard : Nat) : Pool where
  standard := standard
  start
    | 0 => .error "no threads"
    | threads + 1 => .ok (.rounds threads)

/-- Some rules and what they are run with. -/
structure Engine where
  rules : List Rule
  settings : EngineSettings
  tools : Toolchain

namespace Engine

/-- The outcome of a rule that gave `result`. -/
def outcomeOf (rule : String) : Except RuleError (List Violation) → RuleOutcome
  | .ok violations => ⟨rule, violations, none⟩
  | .error e => ⟨rule, [], some e⟩

/-- What is worth a warning about a result. -/
def warnings (path : Path) : Except RuleError (List Violation) → List Record
  | .ok _ => []
  | .error e => [⟨.warn, path.text ++ ": " ++ e.message⟩]

/-- The outcomes of some rules for one file. -/
def runAll (tools : Toolchain) (path : Path) (bytes : Bytes) :
    List Rule → Worker → List RuleOutcome × Worker
  | [], w => ([], w)
  | r :: rest, w =>
    let (result, w) := r.check tools path bytes w
    let (more, w) := runAll tools path bytes rest (w.log (warnings path result))
    (outcomeOf r.name result :: more, w)

/-- The report on a buffer. -/
def checkSource (e : Engine) (path : Path) (bytes : Bytes) (w : Worker) : FileReport × Worker :=
  let (outcomes, w) := runAll e.tools path bytes e.rules w
  (⟨path, outcomes, none⟩, w)

/-- The report on a file. -/
def checkFile (e : Engine) (files : Files) (path : Path) (w : Worker) : FileReport × Worker :=
  match files.read path with
  | .ok bytes => e.checkSource path bytes w
  | .error cause => (⟨path, [], some (.unreadable path cause)⟩, w)

/-- The reports on some files, one after the other. -/
def checkEach (e : Engine) (files : Files) : List Path → Worker → List FileReport × Worker
  | [], w => ([], w)
  | path :: rest, w =>
    let (report, w) := e.checkFile files path w
    let (more, w) := checkEach e files rest w
    (report :: more, w)

/-- The reports that threads make in their turns, each with the number of its file. -/
def takeTurns (e : Engine) (files : Files) (paths : List Path) {threads : Nat} :
    List (Fin paths.length × Fin threads) → Vector Worker threads →
      List (Fin paths.length × FileReport)
  | [], _ => []
  | (i, t) :: rest, workers =>
    let (report, w) := e.checkFile files (paths.get i) (workers.get t)
    (i, report) :: takeTurns e files paths rest (workers.set t w t.isLt)

/-- The reports of new threads on some files, in the order of the files. -/
def checkShared (e : Engine) (files : Files) (paths : List Path) {threads : Nat}
    (s : Schedule threads paths.length) : List FileReport :=
  let reports := e.takeTurns files paths s.turns (Vector.replicate threads Worker.fresh)
  (List.finRange paths.length).filterMap fun i => reports.lookup i

/-- The number of threads to ask a pool for. -/
def threads (e : Engine) (pool : Pool) : Nat :=
  if 0 < e.settings.jobs then e.settings.jobs else pool.standard

/-- The report on some files. -/
def checkFiles (e : Engine) (pool : Pool) (files : Files) (paths : List Path) (w : Worker) :
    Report × Worker :=
  if e.settings.parallel && 1 < paths.length then
    match pool.start (e.threads pool) with
    | .ok share => (⟨e.checkShared files paths (share paths.length)⟩, w)
    | .error cause =>
      let (reports, w) := e.checkEach files paths
        (w.log [⟨.warn, "could not start worker pool, checking sequentially: " ++ cause⟩])
      (⟨reports⟩, w)
  else
    let (reports, w) := e.checkEach files paths w
    (⟨reports⟩, w)

end Engine

end Polyglot
