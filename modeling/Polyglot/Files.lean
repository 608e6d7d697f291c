import Polyglot.Path
import Polyglot.Text.Utf8

/-!
# File trees

A file tree is a value: files with their contents and folders with their members. Paths are
looked up in it piece by piece, so `a/../b` needs a folder `a`, and a piece behind a file is
an error. There are no links, so every entry has one real path.
-/

set_option autoImplicit false

namespace Polyglot

/-- Why a path cannot be read. -/
inductive ReadFailure where
  | notFound
  | notAFolder
  | isAFolder
  | invalidText
deriving DecidableEq, Repr

/-- The message for a path that cannot be read. -/
def ReadFailure.message : ReadFailure → String
  | .notFound => "No such file or directory (os error 2)"
  | .notAFolder => "Not a directory (os error 20)"
  | .isAFolder => "Is a directory (os error 21)"
  | .invalidText => "stream did not contain valid UTF-8"

/-- A file or a folder, with its name. -/
inductive Entry where
  | file (name : String) (content : Bytes)
  | folder (name : String) (members : List Entry)
deriving Inhabited

namespace Entry

/-- The name of an entry in its folder. -/
def name : Entry → String
  | .file name _ => name
  | .folder name _ => name

/-- Whether the entry is a file. -/
def isFile : Entry → Bool
  | .file _ _ => true
  | .folder _ _ => false

/-- The entry with a file at the end of a trail of names below it, or with a folder if there is
no content. Folders on the way are made when they are not there. -/
def put (content : Option Bytes) : List String → Entry → Entry
  | name :: rest, .folder here members =>
    let old := (members.find? fun e => e.name == name).getD (.folder name [])
    let new := match content, rest with
      | some bytes, [] => .file name bytes
      | _, _ => put content rest old
    .folder here (members.filter (fun e => e.name != name) ++ [new])
  | _, e => e

mutual

/-- The paths of the files of an entry that stands at `path`; in a folder, without the members
that `skip` names. -/
def filesFrom (skip : String → Bool) (path : Path) : Entry → List Path
  | .file _ _ => [path]
  | .folder _ members => filesAmong skip path members

/-- The paths of the files of the members of a folder that stands at `path`. -/
def filesAmong (skip : String → Bool) (path : Path) : List Entry → List Path
  | [] => []
  | e :: rest =>
    (if skip e.name then [] else filesFrom skip (path.join e.name) e) ++
      filesAmong skip path rest

end

end Entry

/-- A file tree and the folder that relative paths start from, as names from the root down. -/
structure Files where
  root : Entry
  directory : List String

namespace Files

/-- The tree with the given contents, by paths below the folder that relative paths start
from. A path without content is a folder. -/
def ofContents (directory : List String) (contents : List (Path × Option Bytes)) : Files :=
  let put (root : Entry) (c : Path × Option Bytes) : Entry :=
    root.put c.2 (directory ++ c.1.segments.filter (· != ""))
  ⟨contents.foldl put ((Entry.folder "" []).put none directory), directory⟩

/-- The entry at the end of a trail of entries, which starts below the root and is kept
deepest first. -/
def current (files : Files) : List Entry → Entry
  | [] => files.root
  | e :: _ => e

/-- The trail after the given pieces of a path. -/
def follow (files : Files) : List Entry → List String → Except ReadFailure (List Entry)
  | trail, [] => .ok trail
  | trail, piece :: rest =>
    match files.current trail with
    | .file _ _ => .error .notAFolder
    | .folder _ members =>
      if piece == "" || piece == "." then follow files trail rest
      else if piece == ".." then follow files (trail.drop 1) rest
      else match members.find? fun e => e.name == piece with
        | some e => follow files (e :: trail) rest
        | none => .error .notFound

/-- The trail of a path. The empty path leads nowhere. -/
def trail (files : Files) (p : Path) : Except ReadFailure (List Entry) :=
  if p.text == "" then .error .notFound
  else if p.isAbsolute then files.follow [] p.segments
  else do
    let start ← files.follow [] files.directory
    files.follow start p.segments

/-- The entry at a path. -/
def entry (files : Files) (p : Path) : Except ReadFailure Entry :=
  (files.trail p).map files.current

/-- Whether there is anything at a path. -/
def has (files : Files) (p : Path) : Bool :=
  match files.entry p with
  | .ok _ => true
  | .error _ => false

/-- Whether there is a file at a path. -/
def hasFile (files : Files) (p : Path) : Bool :=
  match files.entry p with
  | .ok e => e.isFile
  | .error _ => false

/-- The contents of the file at a path. -/
def read (files : Files) (p : Path) : Except ReadFailure Bytes :=
  match files.entry p with
  | .error e => .error e
  | .ok (.file _ content) => .ok content
  | .ok (.folder _ _) => .error .isAFolder

/-- The contents of the file at a path as text. -/
def readText (files : Files) (p : Path) : Except ReadFailure String :=
  match files.read p with
  | .error e => .error e
  | .ok content =>
    match Utf8.decode? content with
    | some text => .ok text
    | none => .error .invalidText

/-- The path of names from the root down. -/
def pathOf (names : List String) : Path :=
  ⟨"/" ++ "/".intercalate names⟩

/-- The folder that relative paths start from. -/
def directoryPath (files : Files) : Path :=
  pathOf files.directory

/-- The real path of what is at a path. -/
def realPath (files : Files) (p : Path) : Except ReadFailure Path :=
  (files.trail p).map fun trail => pathOf (trail.reverse.map (·.name))

end Files

end Polyglot
