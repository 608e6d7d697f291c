import Polyglot.Query.Cache

/-!
# Forests

All trees of one file, in the order in which they were found, and grouped by language. The
trees of a language stand in the same order, so the tree at place `n` is occurrence `n`.
-/

set_option autoImplicit false

namespace Polyglot

/-- The trees of one source: all of them in order, the trees of each language, and the languages
in the order of their first trees. -/
structure Forest where
  source : Source
  order : List SyntaxTree
  groups : List (Language × List SyntaxTree)
  languages : List Language

namespace Forest

/-- The forest of a source before anything is parsed. -/
def empty (source : Source) : Forest :=
  ⟨source, [], [], []⟩

/-- The groups with a tree added to the group of its language, or in a group of its own. -/
def addTo (t : SyntaxTree) : List (Language × List SyntaxTree) → List (Language × List SyntaxTree)
  | [] => [(t.language, [t])]
  | (l, trees) :: rest =>
    if l = t.language then (l, trees ++ [t]) :: rest else (l, trees) :: addTo t rest

/-- The forest with one tree more. A language is listed when it has no group yet. -/
def insert (f : Forest) (t : SyntaxTree) : Forest :=
  { f with
    order := f.order ++ [t]
    groups := addTo t f.groups
    languages :=
      if (f.groups.lookup t.language).isNone then f.languages ++ [t.language] else f.languages }

/-- The trees of a language by occurrence. -/
def trees (f : Forest) (l : Language) : List SyntaxTree :=
  (f.groups.lookup l).getD []

/-- The number of trees of a language. -/
def occurrences (f : Forest) (l : Language) : Nat :=
  (f.trees l).length

/-- The number of trees. -/
def size (f : Forest) : Nat :=
  f.order.length

/-- Whether there is a tree of a language. -/
def hasSyntax (f : Forest) (l : Language) : Bool :=
  0 < f.occurrences l

/-- The first tree of a language. -/
def getSyntax (f : Forest) (l : Language) : Except SyntaxError SyntaxTree :=
  match (f.trees l).head? with
  | some t => .ok t
  | none => .error (.notFound l)

/-- The matches of a query text in the first tree of a language. A text that does not compile
is reported even when there is no such tree. -/
def query (f : Forest) (compiler : QueryCompiler) (l : Language) (text : String)
    (cache : QueryCache) : Except SyntaxError (List QueryMatch) × QueryCache :=
  match cache.getOrCompile compiler l text with
  | (.error e, cache) => (.error e, cache)
  | (.ok shared, cache) =>
    match f.getSyntax l with
    | .error e => (.error e, cache)
    | .ok t => (QueryEngine.findAll ⟨l, shared.query⟩ t, cache)

/-- The matches of a query in some trees, tree after tree. -/
def findInAll (e : QueryEngine) : List SyntaxTree → Except SyntaxError (List QueryMatch)
  | [] => .ok []
  | t :: rest =>
    match e.findAll t with
    | .error err => .error err
    | .ok found => (findInAll e rest).map (found ++ ·)

/-- The matches of a query text in all trees of a language, tree after tree. -/
def queryAll (f : Forest) (compiler : QueryCompiler) (l : Language) (text : String)
    (cache : QueryCache) : Except SyntaxError (List QueryMatch) × QueryCache :=
  match cache.getOrCompile compiler l text with
  | (.error e, cache) => (.error e, cache)
  | (.ok shared, cache) => (findInAll ⟨l, shared.query⟩ (f.trees l), cache)

end Forest

end Polyglot
