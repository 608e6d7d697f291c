import Polyglot.Config.Search

/-!
# The catalog of chains

Definitions refer to each other by name. The catalog accepts them when every name is defined
once, every reference is defined, and no chain contains itself; then a chain can be unfolded
from its name. Cycles are looked for depth first, and a cycle is reported as the path that
closes it.
-/

set_option autoImplicit false

namespace Polyglot

/-- Why definitions cannot be catalogued, or a name not unfolded. -/
inductive CatalogError where
  | cycle (path : List String)
  | unknownChain (name referencedBy : String)
  | duplicateChain (name : String)
  | rootExtractor (name : String)
  | missingExtractor (name : String)
deriving DecidableEq, Repr

/-- The message for the error. -/
def CatalogError.message : CatalogError → String
  | .cycle path => "chain cycle: " ++ " -> ".intercalate path
  | .unknownChain name referencedBy => referencedBy ++ " references unknown chain '" ++ name ++ "'"
  | .duplicateChain name => "chain '" ++ name ++ "' is defined more than once"
  | .rootExtractor name =>
    "chain '" ++ name ++ "' is used as a root chain but declares an extractor"
  | .missingExtractor name => "chain '" ++ name ++ "' is nested but declares no extractor"

/-- Chain definitions whose references are in order. -/
structure Catalog where
  definitions : List ChainDefinition
deriving DecidableEq, Repr

namespace Catalog

/-- The first name that is defined again, when some are `taken`. -/
def repeated? : List String → List ChainDefinition → Option String
  | _, [] => none
  | taken, d :: rest =>
    if taken.contains d.name then some d.name else repeated? (d.name :: taken) rest

/-- The first reference to a name that is not defined: the name and the chain that refers. -/
def dangling? (definitions : List ChainDefinition) : Option (String × String) :=
  definitions.findSome? fun d =>
    (d.children.find? fun child => (ChainDefinition.find? definitions child).isNone).map
      fun child => (child, d.name)

/-- The marks after a search from one more definition, unless it has a mark already. -/
def searchFrom (definitions : List ChainDefinition)
    (marks : Marks definitions.length) (i : Fin definitions.length) :
    Except CatalogError (Marks definitions.length) :=
  if (marks.get i).isSome then .ok marks
  else
    match (MarkSearch.start marks i).run definitions with
    | .clear marks => .ok marks
    | .closed path => .error (.cycle path)
    | .undefined name => .error (.unknownChain name "lookup")

/-- Looks for cycles below every definition. -/
def checkCycles (definitions : List ChainDefinition) : Except CatalogError Unit := do
  let _ ← (List.finRange definitions.length).foldlM (searchFrom definitions)
    (MarkSearch.unmarked definitions.length)

/-- The catalog of some definitions. -/
def ofDefinitions (definitions : List ChainDefinition) : Except CatalogError Catalog :=
  match repeated? [] definitions with
  | some name => .error (.duplicateChain name)
  | none =>
    match dangling? definitions with
    | some (child, name) => .error (.unknownChain child ("chain '" ++ name ++ "'"))
    | none =>
      match checkCycles definitions with
      | .error e => .error e
      | .ok () => .ok ⟨definitions⟩

/-- The definition of a name. -/
def get? (c : Catalog) (name : String) : Option ChainDefinition :=
  ChainDefinition.find? c.definitions name

/-- The definition and the extractor of a nested chain. -/
def nested (c : Catalog) (name : String) : Except CatalogError (ChainDefinition × Extractor) :=
  match c.get? name with
  | none => .error (.unknownChain name "lookup")
  | some d =>
    match d.extract with
    | none => .error (.missingExtractor d.name)
    | some extract => .ok (d, extract.build)

/-- The chain of a definition, unfolded to a depth of at most `fuel`. -/
def unfold (c : Catalog) : Nat → ChainDefinition → Option Extractor → Except CatalogError ChainSpec
  | 0, d, _ => .error (.cycle [d.name])
  | fuel + 1, d, extractor => do
    let children ← d.children.mapM fun name => do
      let (child, extract) ← c.nested name
      unfold c fuel child (some extract)
    return .mk d.entry children extractor (d.edit.map (·.build))

/-- The root chain of a name. -/
def spec (c : Catalog) (name : String) : Except CatalogError ChainSpec :=
  match c.get? name with
  | none => .error (.unknownChain name "lookup")
  | some d =>
    if d.extract.isSome then .error (.rootExtractor name)
    else c.unfold c.definitions.length d none

/-- The root chains in the order of their definitions. -/
def roots (c : Catalog) : List ChainDefinition :=
  c.definitions.filter fun d => !d.extensions.isEmpty

/-- The first root chain for the extension of a path. -/
def rootForPath? (c : Catalog) (p : Path) : Option ChainDefinition :=
  p.extension?.bind fun ext => c.roots.find? fun d => d.handles ext

/-- The members of a sorted list, each once. -/
def unique : List String → List String
  | [] => []
  | [a] => [a]
  | a :: b :: rest => if a == b then unique (b :: rest) else a :: unique (b :: rest)

/-- Every extension of a root chain, in lower case, sorted, each once. -/
def extensions (c : Catalog) : List String :=
  unique (((c.roots.flatMap (·.extensions)).map Text.lower).mergeSort fun a b => a ≤ b)

end Catalog

end Polyglot
