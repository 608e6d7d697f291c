import Polyglot.Engine

/-!
# What the program prints

Trees as outlines of their named nodes, matches with the first lines of their captures, and
reports as lines of text or as a document. Every function gives lines or texts; nothing here
knows where they go.
-/

set_option autoImplicit false

namespace Polyglot

/-- Lines as they are printed, each with its end. -/
def Text.lines (lines : List String) : String :=
  String.join (lines.map (· ++ "\n"))

/-- The first line of a text without its end. -/
def Text.firstLine (s : String) : String :=
  let cs := s.toList
  let line := cs.takeWhile (· != '\n')
  if line.length < cs.length && line.getLast? == some '\r' then String.ofList line.dropLast
  else String.ofList line

namespace SyntaxNode

/-- The line of a node in an outline. -/
def outlineLine (depth : Nat) (n : SyntaxNode) : String :=
  let field := match n.data.field with
    | some field => field ++ ": "
    | none => ""
  String.ofList (List.replicate (2 * depth) ' ') ++ field ++ n.kind ++ " [" ++
    n.location.startPoint.text ++ "-" ++ n.location.stopPoint.text ++ "]"

end SyntaxNode

namespace SyntaxTree

/-- The line above a tree. -/
def headerLine (t : SyntaxTree) : String :=
  t.language.name ++ s!" #{t.occurrence}  " ++ t.origin.startPoint.text ++ "-" ++
    t.origin.stopPoint.text ++ s!"  ({t.nodes.size} nodes)" ++
    (if t.isEdited then "  rewritten" else "") ++ (if t.hasError then "  has errors" else "")

/-- At most `fuel` lines of an outline, from the pending nodes on, each with its depth. -/
def outlineFrom : Nat → List (Nat × SyntaxNode) → List String
  | 0, _ => []
  | _, [] => []
  | fuel + 1, (depth, n) :: pending =>
    n.outlineLine depth ::
      outlineFrom fuel (n.namedChildren.map (fun child => (depth + 1, child)) ++ pending)

/-- The root and all nodes that are reached from it through named nodes, a line each. -/
def outline (t : SyntaxTree) : List String :=
  outlineFrom (t.nodes.size + 1) [(1, t.root)]

/-- The lines for a tree: a header, the tree as an outline or in nested form, and an empty
line. -/
def display (nested : Bool) (t : SyntaxTree) : List String :=
  t.headerLine :: (if nested then [t.parse.sexp] else t.outline) ++ [""]

end SyntaxTree

namespace QueryMatch

/-- The line of a capture. -/
def captureLine (c : Capture) : String :=
  "  @" ++ c.name ++ " " ++ c.node.kind ++ " " ++ c.node.location.startPoint.text ++ "  " ++
    Text.firstLine c.node.text

/-- The lines for the match at a place in a list. -/
def display (m : QueryMatch) (place : Nat) : List String :=
  s!"match {place + 1} (pattern {m.pattern})" :: m.captures.map captureLine

/-- The lines for some matches. -/
def displayAll (found : List QueryMatch) : List String :=
  if found.isEmpty then ["no matches"]
  else found.zipIdx.flatMap (fun (m, place) => m.display place) ++
    ["", s!"{found.length} match(es)"]

end QueryMatch

/-- How long something took: in milliseconds, and as it is printed. -/
structure Elapsed where
  milliseconds : Nat
  text : String
deriving DecidableEq, Repr

namespace Elapsed

/-- A number of nanoseconds in a unit of `unit` nanoseconds, with two places. -/
def inUnit (nanoseconds unit : Nat) (symbol : String) : String :=
  let hundredths := (200 * nanoseconds + unit) / (2 * unit)
  toString (hundredths / 100) ++ "." ++ (if hundredths % 100 < 10 then "0" else "") ++
    toString (hundredths % 100) ++ symbol

/-- A number of nanoseconds, printed in the largest unit that it fills. -/
def ofNanoseconds (n : Nat) : Elapsed :=
  ⟨n / 1000000,
    if 1000000000 ≤ n then inUnit n 1000000000 "s"
    else if 1000000 ≤ n then inUnit n 1000000 "ms"
    else if 1000 ≤ n then inUnit n 1000 "µs"
    else inUnit n 1 "ns"⟩

end Elapsed

namespace FileReport

/-- The line for a violation that a rule found in a file. -/
def violationLine (path : Path) (rule : String) (v : Violation) : String :=
  let place := match v.location with
    | some l => path.text ++ ":" ++ l.startPoint.text
    | none => path.text
  place ++ ": " ++ v.title ++ " [" ++ rule ++ "]"

/-- The lines for the violations in a file. -/
def violationLines (r : FileReport) : List String :=
  r.outcomes.flatMap fun o => o.violations.map (violationLine r.path o.rule)

/-- The lines for what went wrong with a file. -/
def errorLines (r : FileReport) : List String :=
  (r.error.map fun e => "error: " ++ e.message).toList ++
    r.outcomes.filterMap fun o => o.error.map fun e => "error: " ++ r.path.text ++ ": " ++ e.message

end FileReport

namespace Report

/-- The last line of a report. -/
def summary (r : Report) (elapsed : Elapsed) : String :=
  s!"{r.violationCount} violation(s), {r.errorCount} error(s) in {r.files.length} file(s) (" ++
    elapsed.text ++ ")"

/-- The lines of a report: the violations and the summary, which stands apart if something is
wrong. -/
def display (r : Report) (elapsed : Elapsed) : List String :=
  r.files.flatMap FileReport.violationLines ++
    (if r.isClean then [] else [""]) ++ [r.summary elapsed]

/-- The report as a document. -/
def data (r : Report) (elapsed : Elapsed) : Data :=
  .ofMembers [("files", .list (r.files.map FileReport.data)),
    ("violations", .natural r.violationCount), ("errors", .natural r.errorCount),
    ("duration_ms", .natural elapsed.milliseconds)]

end Report

end Polyglot
