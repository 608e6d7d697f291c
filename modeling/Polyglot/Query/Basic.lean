import Polyglot.Syntax.Navigation

/-!
# Queries

A compiled query belongs to one language. It knows the names of its captures, the predicates
of each of its patterns, and how to find raw matches in a tree. `findAll` drops the matches
whose predicates fail, sorts the captures of each match by declaration, and sorts the matches
by the start of their first capture and then by pattern. Both sorts keep the order of equals.

What a predicate asks is up to the one who compiles the query. It sees the source text behind a
node, also in a tree that was parsed from edited bytes.
-/

set_option autoImplicit false

namespace Polyglot

/-- A match as it is found: its pattern, and the captured nodes by the numbers of the capture
and of the node in the parse. -/
structure RawMatch where
  pattern : Nat
  captures : List (Nat × Nat)
deriving DecidableEq, Repr

/-- A condition on the texts of the nodes that a match binds to each capture. -/
structure Predicate where
  holds : (Nat → List Bytes) → Bool

/-- A compiled query. -/
structure Query where
  captureNames : List String
  predicates : List (List Predicate)
  rawMatches : SyntaxTree → List RawMatch

/-- Compiles a query text for a language, or says why it cannot. -/
abbrev QueryCompiler := Language → String → Except String Query

/-- A captured node. `index` is the number of the capture name in the query. -/
structure Capture where
  name : String
  index : Nat
  node : SyntaxNode

/-- A match: the pattern that matched and its captures in declaration order. -/
structure QueryMatch where
  pattern : Nat
  captures : List Capture

namespace QueryMatch

/-- The nodes captured under a name. -/
def nodesFor (m : QueryMatch) (name : String) : List SyntaxNode :=
  (m.captures.filter fun c => c.name == name).map (·.node)

/-- The first node captured under a name. -/
def capture? (m : QueryMatch) (name : String) : Option SyntaxNode :=
  (m.captures.find? fun c => c.name == name).map (·.node)

/-- Where the first capture starts. -/
def start? (m : QueryMatch) : Option Nat :=
  m.captures.head?.map fun c => c.node.location.start

/-- Not later in the order of results: by the first capture's start, a match without
captures last, then by pattern. -/
def notAfter (m k : QueryMatch) : Bool :=
  match m.start?, k.start? with
  | some a, some b => a < b || (a == b && m.pattern ≤ k.pattern)
  | some _, none => true
  | none, some _ => false
  | none, none => m.pattern ≤ k.pattern

end QueryMatch

namespace Query

/-- The number of patterns. -/
def patternCount (q : Query) : Nat :=
  q.predicates.length

/-- The nodes that a raw match binds to a capture, in the order of the match. -/
def nodesOf (t : SyntaxTree) (m : RawMatch) (capture : Nat) : List Node :=
  ((m.captures.filter fun c => c.1 == capture).filterMap fun c => t.indexOf? c.2).map t.node

/-- Whether all predicates of the match's pattern hold. -/
def admits (q : Query) (t : SyntaxTree) (m : RawMatch) : Bool :=
  (q.predicates.getD m.pattern []).all fun p =>
    p.holds fun c => (nodesOf t m c).map fun n => t.sourceBytes n.parsed

/-- A raw capture on its node of the tree. -/
def locateCapture? (q : Query) (t : SyntaxTree) (c : Nat × Nat) : Option Capture :=
  (t.indexOf? c.2).map fun id => ⟨q.captureNames.getD c.1 "", c.1, ⟨t, id⟩⟩

/-- A raw match with its captures in declaration order. -/
def locate (q : Query) (t : SyntaxTree) (m : RawMatch) : QueryMatch :=
  ⟨m.pattern, (m.captures.filterMap (q.locateCapture? t)).mergeSort fun c d => c.index ≤ d.index⟩

/-- The matches of the query in a tree, in the order of results. -/
def results (q : Query) (t : SyntaxTree) : List QueryMatch :=
  (((q.rawMatches t).filter (q.admits t)).map (q.locate t)).mergeSort QueryMatch.notAfter

end Query

/-- A query with the language it was compiled for. -/
structure QueryEngine where
  language : Language
  query : Query

namespace QueryEngine

/-- All matches in a tree, which has to be of the query's language. -/
def findAll (e : QueryEngine) (t : SyntaxTree) : Except SyntaxError (List QueryMatch) :=
  if t.language = e.language then .ok (e.query.results t)
  else .error (.languageMismatch e.language t.language)

end QueryEngine

end Polyglot
