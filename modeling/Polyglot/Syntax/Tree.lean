import Polyglot.OffsetMap
import Polyglot.Source
import Polyglot.Syntax.Parse

/-!
# Syntax trees

A syntax tree lays the nodes of a parse out in one array, in pre-order, so a node is named by
its index. Parent and children are indices, and each node carries its location in the source
beside its span in the parsed bytes. Every span is mapped through the offset map and then moved
into the location of the parent: an empty node on a deletion may map beside its parent otherwise.

The array is made by a loop over a stack of subtrees that wait. `Construction.step` takes the next
one, stores its root, makes the root the last child of the node above, and lets the children wait
in front of all else.
-/

set_option autoImplicit false

namespace Polyglot

/-- A node of a syntax tree. `slot` is its place among the children of its parent. -/
structure Node where
  parseId : Nat
  kind : String
  flags : NodeFlags
  field : Option String
  parsed : Span
  location : Location
  parent : Option Nat
  children : List Nat
  slot : Nat
deriving DecidableEq, Repr, Inhabited

namespace Node

/-- Whether error recovery made the node. -/
def isFault (n : Node) : Bool :=
  n.flags.error || n.flags.missing

end Node

namespace ParseTree

/-- The location of a span: where the map leads it, moved into the parent's location. -/
def locateIn (map : OffsetMap) (source : Source) (outer : Option Location) (span : Span) :
    Location :=
  let image := map.mapRange span.start span.stop
  match outer with
  | none => source.locate image.start image.stop
  | some outer =>
    let start := max outer.start (min image.start outer.stop)
    let stop := max start (min image.stop outer.stop)
    source.locate start stop

end ParseTree

/-- A subtree that waits to be stored, below the node of an index and at a place there. -/
structure Pending where
  tree : ParseTree
  parent : Option Nat
  slot : Nat

/-- The nodes that have been stored, and the subtrees that wait, the next one in front. -/
structure Construction where
  nodes : Array Node
  stack : List Pending

namespace Construction

/-- Nothing is stored, and the whole parse waits. -/
def start (root : ParseTree) : Construction :=
  ⟨#[], [⟨root, none, 0⟩]⟩

/-- The nodes with one more, which becomes the last child of the node above it. -/
def store (nodes : Array Node) (n : Node) : Array Node :=
  let id := nodes.size
  match n.parent with
  | none => nodes.push n
  | some up =>
    (nodes.push n).modify up fun above => { above with children := above.children ++ [id] }

/-- The children of a node as they wait, from a place on. -/
def waiting (up slot : Nat) : List ParseTree → List Pending
  | [] => []
  | t :: rest => ⟨t, some up, slot⟩ :: waiting up (slot + 1) rest

/-- One turn of the loop, unless nothing waits. A node is stored without children; they come one
by one, when their turn is. -/
def step (map : OffsetMap) (source : Source) : Construction → Option Construction
  | ⟨_, []⟩ => none
  | ⟨nodes, ⟨.node label children, parent, slot⟩ :: rest⟩ =>
    let id := nodes.size
    let outer := parent.map fun up => (nodes.getD up default).location
    let location := ParseTree.locateIn map source outer label.span
    some ⟨store nodes ⟨label.id, label.kind, label.flags, label.field, label.span, location, parent,
      [], slot⟩, waiting id 0 children ++ rest⟩

/-- The number of nodes that wait. -/
def remaining (c : Construction) : Nat :=
  ParseTree.sizeAll (c.stack.map (·.tree))

theorem trees_waiting (up slot : Nat) (l : List ParseTree) :
    (waiting up slot l).map (·.tree) = l := by
  induction l generalizing slot with
  | nil => rfl
  | cons t l ih => rw [waiting, List.map_cons, ih]

/-- A turn stores one node. -/
theorem remaining_of_step {map : OffsetMap} {source : Source} {c next : Construction}
    (h : c.step map source = some next) : c.remaining = next.remaining + 1 := by
  match c, h with
  | ⟨nodes, ⟨.node label children, parent, slot⟩ :: rest⟩, h =>
    obtain rfl := Option.some.inj h
    simp only [remaining, List.map_cons, List.map_append, trees_waiting, ParseTree.sizeAll,
      ParseTree.sizeAll_append, ParseTree.size]
    omega

/-- The nodes once nothing waits any more. -/
@[semireducible]
def run (map : OffsetMap) (source : Source) (c : Construction) : Array Node :=
  match _h : c.step map source with
  | some next => run map source next
  | none => c.nodes
termination_by c.remaining
decreasing_by
  have := remaining_of_step _h
  omega

end Construction

/-- The nodes of a parse, in pre-order. -/
def ParseTree.arena (map : OffsetMap) (source : Source) (root : ParseTree) : Array Node :=
  (Construction.start root).run map source

/-- The tree of one region of a file: the bytes that were parsed for it, the parse, the way
back to the source, and the nodes in pre-order. `occurrence` counts the trees of a language. -/
structure SyntaxTree where
  language : Language
  occurrence : Nat
  parsed : Bytes
  parse : Parse
  map : OffsetMap
  origin : Location
  source : Source
  nodes : Array Node

namespace SyntaxTree

/-- The tree of a parse whose bytes the map leads back to the source. -/
def build (language : Language) (occurrence : Nat) (parsed : Bytes) (parse : Parse)
    (map : OffsetMap) (source : Source) : SyntaxTree :=
  let span := map.targetSpan
  { language, occurrence, parsed, parse, map, source
    origin := source.locate span.start span.stop
    nodes := parse.root.arena map source }

/-- The node of an index; an index past the last node has the default one. -/
def node (t : SyntaxTree) (id : Nat) : Node :=
  t.nodes.getD id default

/-- Whether an edit changed the layout of the parsed bytes. -/
def isEdited (t : SyntaxTree) : Bool :=
  !t.map.isLinear

/-- Whether the parse has an error anywhere. -/
def hasError (t : SyntaxTree) : Bool :=
  (t.node 0).flags.hasError

/-- The bytes of the source behind a span of the parsed bytes. -/
def sourceBytes (t : SyntaxTree) (span : Span) : Bytes :=
  let image := t.map.mapRange span.start span.stop
  t.source.slice image.start image.stop

/-- The index of the node that the parse numbers `parseId`. -/
def indexOf? (t : SyntaxTree) (parseId : Nat) : Option Nat :=
  t.nodes.findIdx? fun n => n.parseId == parseId

/-- The dump of the tree's key data. -/
def dump (t : SyntaxTree) : String :=
  s!"SyntaxTree \x7b language: {t.language.label}, occurrence: {t.occurrence}, " ++
    s!"origin: {t.origin.span.text}, nodes: {t.nodes.size} \x7d"

end SyntaxTree

end Polyglot
