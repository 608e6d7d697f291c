import Polyglot.Query.Basic

/-!
# The cache of compiled queries

Rules ask the same query of every file, so a compiled query is kept under its language and
text. The cache holds at most `capacity` queries: when it is full it is emptied, and what is
needed again is compiled again. A text that does not compile leaves the cache as it was.
-/

set_option autoImplicit false

namespace Polyglot

/-- A compiled query that is shared by all who ask for it. The serial number is the number of
queries compiled before it, so it tells apart two compilations of one text. -/
structure SharedQuery where
  serial : Nat
  query : Query

/-- The queries compiled so far that are still held, newest first. -/
structure QueryCache where
  entries : List ((Language × String) × SharedQuery)
  compiled : Nat

namespace QueryCache

/-- The most queries that are held at a time. -/
def capacity : Nat := 256

/-- The cache before the first query. -/
def empty : QueryCache :=
  ⟨[], 0⟩

/-- The number of queries held. -/
def size (c : QueryCache) : Nat :=
  c.entries.length

/-- The cache without the queries it holds. -/
def clear (c : QueryCache) : QueryCache :=
  ⟨[], c.compiled⟩

/-- The query held for a language and a text. -/
def find? (c : QueryCache) (language : Language) (text : String) : Option SharedQuery :=
  c.entries.lookup (language, text)

/-- Adds a fresh query, to an emptied cache if it was full. -/
def insert (c : QueryCache) (language : Language) (text : String) (q : Query) :
    SharedQuery × QueryCache :=
  let shared : SharedQuery := ⟨c.compiled, q⟩
  let kept := if capacity ≤ c.size then [] else c.entries
  (shared, ⟨((language, text), shared) :: kept, c.compiled + 1⟩)

/-- The query for a text, from the cache or compiled anew. -/
def getOrCompile (compiler : QueryCompiler) (c : QueryCache) (language : Language)
    (text : String) : Except SyntaxError SharedQuery × QueryCache :=
  match c.find? language text with
  | some shared => (.ok shared, c)
  | none =>
    match compiler language text with
    | .error message => (.error (.invalidQuery language message), c)
    | .ok q => let (shared, c) := c.insert language text q; (.ok shared, c)

end QueryCache

/-- The languages for which a parser stands ready. -/
structure ParserPool where
  languages : List Language
deriving DecidableEq, Repr

namespace ParserPool

/-- The pool before the first parse. -/
def empty : ParserPool :=
  ⟨[]⟩

/-- The number of parsers that stand ready. -/
def size (p : ParserPool) : Nat :=
  p.languages.length

/-- The pool after a parser for a language was asked for. -/
def take (p : ParserPool) (language : Language) : ParserPool :=
  if p.languages.contains language then p else ⟨language :: p.languages⟩

end ParserPool

end Polyglot
