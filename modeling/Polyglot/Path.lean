import Polyglot.Text.Blank

/-!
# Paths

A path is kept as it was written. It is read as a list of components: the root, a leading
`.`, each `..`, and names; repeated slashes and other `.` pieces are nothing. Comparison,
extension, parent and the start and end tests all go by components.
-/

set_option autoImplicit false

namespace Polyglot

/-- A path as it was written. -/
structure Path where
  text : String
deriving DecidableEq, Repr, Inhabited

namespace Path

/-- The pieces between the separators; one more than there are separators. -/
def pieces (sep : Char) : List Char → List (List Char)
  | [] => [[]]
  | c :: rest =>
    if c == sep then [] :: pieces sep rest
    else match pieces sep rest with
      | [] => [[c]]
      | piece :: more => (c :: piece) :: more

/-- One step of a path. -/
inductive Component where
  | root
  | here
  | up
  | name (text : String)
deriving DecidableEq, Repr

/-- What comes first when paths are put in order: root, `.`, `..`, names by their letters. -/
def Component.compare : Component → Component → Ordering
  | .root, .root => .eq
  | .root, _ => .lt
  | _, .root => .gt
  | .here, .here => .eq
  | .here, _ => .lt
  | _, .here => .gt
  | .up, .up => .eq
  | .up, _ => .lt
  | _, .up => .gt
  | .name a, .name b => Ord.compare a b

/-- The slash-separated pieces of the text. -/
def segments (p : Path) : List String :=
  (pieces '/' p.text.toList).map String.ofList

/-- Whether the path starts at the root. -/
def isAbsolute (p : Path) : Bool :=
  p.text.toList.head? == some '/'

/-- What a piece means after the first one. -/
def later? (piece : String) : Option Component :=
  if piece == "" || piece == "." then none
  else if piece == ".." then some .up
  else some (.name piece)

/-- The steps of the path. -/
def components (p : Path) : List Component :=
  if p.isAbsolute then .root :: p.segments.filterMap later?
  else match p.segments with
    | "." :: rest => .here :: rest.filterMap later?
    | all => all.filterMap later?

/-- Lexicographic order of components. -/
def compareComponents : List Component → List Component → Ordering
  | [], [] => .eq
  | [], _ :: _ => .lt
  | _ :: _, [] => .gt
  | a :: as, b :: bs => (a.compare b).then (compareComponents as bs)

/-- The order of paths. -/
def compare (p q : Path) : Ordering :=
  compareComponents p.components q.components

/-- Whether two paths have the same steps. -/
def same (p q : Path) : Bool :=
  p.components == q.components

/-- Whether `p` begins with all steps of `q`. -/
def startsWith (p q : Path) : Bool :=
  q.components.isPrefixOf p.components

/-- Whether `p` ends with all steps of `q`. -/
def endsWith (p q : Path) : Bool :=
  q.components.isSuffixOf p.components

/-- The last step, when it is a name. -/
def fileName? (p : Path) : Option String :=
  match p.components.getLast? with
  | some (.name text) => some text
  | _ => none

/-- What follows the last dot of a name; nothing when no dot follows its first letter. -/
def extensionOf? (name : String) : Option String :=
  let reversed := name.toList.reverse
  match reversed.dropWhile (· != '.') with
  | [] | [_] => none
  | _ :: _ => some (String.ofList (reversed.takeWhile (· != '.')).reverse)

/-- The extension of the file the path names. -/
def extension? (p : Path) : Option String :=
  p.fileName?.bind extensionOf?

/-- The path with `name` below it. -/
def join (p : Path) (name : String) : Path :=
  if name.toList.head? == some '/' then ⟨name⟩
  else if p.text == "" || p.text.toList.getLast? == some '/' then ⟨p.text ++ name⟩
  else ⟨p.text ++ "/" ++ name⟩

/-- The path with a folder before it, unless it starts at the root already. -/
def startingAt (p directory : Path) : Path :=
  if p.isAbsolute then p else directory.join p.text

/-- Trailing pieces, last first, without those that mean nothing. The first piece of a
relative path counts even when it is a single dot. -/
def trimTail : List String → List String
  | [] => []
  | [first] => if first == "" then [] else [first]
  | last :: rest => if last == "" || last == "." then trimTail rest else last :: rest

/-- The path without its last step; the root and the empty path have none. -/
def parent? (p : Path) : Option Path :=
  if p.isAbsolute then
    match (p.segments.drop 1).reverse.dropWhile (fun s => s == "" || s == ".") with
    | [] => none
    | _ :: rest =>
      let kept := rest.dropWhile (fun s => s == "" || s == ".")
      some ⟨"/" ++ "/".intercalate kept.reverse⟩
  else
    match trimTail p.segments.reverse with
    | [] => none
    | _ :: rest => some ⟨"/".intercalate (trimTail rest).reverse⟩

/-- At most `n` paths: this one, its parent, and so on. -/
def ancestorsUpTo : Nat → Path → List Path
  | 0, _ => []
  | n + 1, p => p :: (p.parent?.map (ancestorsUpTo n)).getD []

/-- The path itself and every path above it, nearest first. -/
def ancestors (p : Path) : List Path :=
  ancestorsUpTo (p.text.length + 1) p

end Path

end Polyglot
