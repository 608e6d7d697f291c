import Polyglot.Command.Run

/-!
# The program

Reads the command line and prints what the command gives. The files that a command works on
come from standard input: a line with the folder that the program stands in, and then for each
file a line with its length in bytes and its path below that folder, followed by its contents.
Grammars, a query compiler and a TOML reader belong to the machine that the program runs on;
`Program.workbench` is the one of a machine that has none, where parsing fails and says so.
-/

set_option autoImplicit false

namespace Polyglot.Program

/-- The name and the version of the program. -/
def version : String :=
  "chainlint 0.1.0"

/-- How the program is called. -/
def usage : String :=
  Text.lines
    ["Lint files that embed several languages",
      "",
      "Usage: chainlint [-v] tree FILE [--config PATH] [--chain NAME | --lang LANGUAGE] [--sexp]",
      "       chainlint [-v] query FILE --target LANGUAGE --pattern QUERY [--config PATH]",
      "                      [--chain NAME | --lang LANGUAGE]",
      "       chainlint [-v] check [PATHS] [--config PATH] [--json] [--jobs N]",
      "       chainlint help [COMMAND]"]

/-- The workbench of a machine without grammars. -/
def workbench (files : Files) : Workbench :=
  ⟨files, fun _ => none, fun l _ => .error (.parseFailed l), fun _ _ => .error "no grammar",
    .rounds 1⟩

/-- The length and the path in the line before a file. -/
def header? (line : String) : Option (Nat × Path) :=
  let body := line.toList.takeWhile (· != '\n')
  let length := (String.ofList (body.takeWhile (· != ' '))).toNat?
  length.map fun n => (n, ⟨String.ofList ((body.dropWhile (· != ' ')).drop 1)⟩)

/-- The names of the folder in the first line. -/
def folder (line : String) : List String :=
  (Path.segments ⟨String.ofList (line.toList.takeWhile (· != '\n'))⟩).filter (· != "")

/-- Reads the files up to the first line that announces none. -/
partial def readFiles (input : IO.FS.Stream) : IO (List (Path × Option Bytes)) := do
  match header? (← input.getLine) with
  | none => return []
  | some (length, path) =>
    let content ← input.read length.toUSize
    return (path, some content.toList) :: (← readFiles input)

/-- Prints the output of a command and gives its exit code. -/
def print (o : Output) : IO UInt32 := do
  IO.print o.out
  IO.eprint o.err
  return o.exit.toUInt32

/-- Runs a command on the files from standard input. -/
def execute (command : Command) : IO UInt32 := do
  let input ← IO.getStdin
  let directory := folder (← input.getLine)
  let files := Files.ofContents directory (← readFiles input)
  let start ← IO.monoNanosNow
  match (workbench files).run command with
  | .error e => print e.output
  | .ok outcome => print (outcome.output (Elapsed.ofNanoseconds ((← IO.monoNanosNow) - start)))

end Polyglot.Program

/-- The program. -/
def main (args : List String) : IO UInt32 :=
  match Polyglot.Request.ofArguments args with
  | .run _ command => Polyglot.Program.execute command
  | .help => Polyglot.Program.print ⟨0, Polyglot.Program.usage, ""⟩
  | .version => Polyglot.Program.print ⟨0, Polyglot.Program.version ++ "\n", ""⟩
  | .refused e =>
    Polyglot.Program.print ⟨2, "", "error: " ++ e.message ++ "\n\n" ++ Polyglot.Program.usage⟩
