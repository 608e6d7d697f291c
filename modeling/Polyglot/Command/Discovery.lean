import Polyglot.Config.Definition
import Polyglot.Files

/-!
# Finding the files to check

A file that is named is always checked. A folder stands for the files below it that have a
known extension; hidden entries and package folders below it are left out. The files come in
the order of their paths, each once, so it does not matter in which order they are named.
-/

set_option autoImplicit false

namespace Polyglot

namespace Path

/-- The list without what is the same path as the one before it. -/
def dropRepeats : List Path → List Path
  | [] => []
  | [p] => [p]
  | p :: q :: rest =>
    if p.same q then dropRepeats (p :: rest) else p :: dropRepeats (q :: rest)
termination_by ps => ps.length

/-- The paths in order, each once. -/
def sorted (paths : List Path) : List Path :=
  dropRepeats (paths.mergeSort fun p q => p.compare q != .gt)

end Path

namespace Files

/-- Whether a walk leaves out the entries of a name: hidden ones and package folders. -/
def skips (name : String) : Bool :=
  name.toList.head? == some '.' || name == "node_modules"

/-- Whether a path has one of some extensions. -/
def hasKnownExtension (extensions : List String) (p : Path) : Bool :=
  p.extension?.any (listsExtension extensions)

/-- The files that an argument stands for; nothing when there is nothing at the path. -/
def filesAt? (files : Files) (extensions : List String) (p : Path) : Option (List Path) :=
  match files.entry p with
  | .error _ => none
  | .ok (.file _ _) => some [p]
  | .ok folder => some ((folder.filesFrom skips p).filter (hasKnownExtension extensions))

/-- The files that some arguments stand for, argument after argument, or the first argument
where there is nothing. -/
def gather (files : Files) (extensions : List String) : List Path → Except Path (List Path)
  | [] => .ok []
  | p :: rest =>
    match files.filesAt? extensions p with
    | none => .error p
    | some found => (gather files extensions rest).map (found ++ ·)

/-- The files to check for some arguments, or the first argument where there is nothing. -/
def lintable (files : Files) (extensions : List String) (arguments : List Path) :
    Except Path (List Path) :=
  (files.gather extensions arguments).map Path.sorted

end Files

end Polyglot
