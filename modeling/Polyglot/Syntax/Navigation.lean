import Polyglot.Syntax.Tree

/-!
# Moving about in a syntax tree

A handle is a tree and the index of one of its nodes. From it one moves to the parent, to
children and siblings, to all descendants in pre-order, to the descendants of some kinds, to
the nearest ancestor of some kinds, and to the smallest node around a range of the source.

The walks are bounded by the number of nodes of the tree. No walk in a tree that was laid out
from a parse reaches that bound early: children stand behind their parent, and siblings behind each
other.
-/

set_option autoImplicit false

namespace Polyglot

/-- A node of a syntax tree. -/
structure SyntaxNode where
  tree : SyntaxTree
  id : Nat

namespace SyntaxTree

/-- The handle of an index, if there is such a node. -/
def node? (t : SyntaxTree) (id : Nat) : Option SyntaxNode :=
  if id < t.nodes.size then some ⟨t, id⟩ else none

/-- The handle of the root. -/
def root (t : SyntaxTree) : SyntaxNode :=
  ⟨t, 0⟩

/-- All nodes by index. -/
def allNodes (t : SyntaxTree) : List SyntaxNode :=
  (List.range t.nodes.size).map fun id => ⟨t, id⟩

/-- The nodes that error recovery made. -/
def errorNodes (t : SyntaxTree) : List SyntaxNode :=
  t.allNodes.filter fun n => (t.node n.id).isFault

/-- At most `fuel` nodes in pre-order, from the pending ones on. -/
def walkFrom (t : SyntaxTree) : Nat → List Nat → List Nat
  | 0, _ => []
  | _, [] => []
  | fuel + 1, id :: pending => id :: walkFrom t fuel ((t.node id).children ++ pending)

/-- Of at most `fuel` nodes from the pending ones on, those that `wanted` accepts. Below a
node that `reaches` refuses nothing is looked at. -/
def collectFrom (t : SyntaxTree) (reaches wanted : Node → Bool) : Nat → List Nat → List Nat
  | 0, _ => []
  | _, [] => []
  | fuel + 1, id :: pending =>
    let n := t.node id
    if !reaches n then collectFrom t reaches wanted fuel pending
    else if wanted n then id :: collectFrom t reaches wanted fuel (n.children ++ pending)
    else collectFrom t reaches wanted fuel (n.children ++ pending)

/-- At most `fuel` strict ancestors, nearest first. -/
def ancestorsFrom (t : SyntaxTree) : Nat → Nat → List Nat
  | 0, _ => []
  | fuel + 1, id =>
    match (t.node id).parent with
    | none => []
    | some up => up :: ancestorsFrom t fuel up

end SyntaxTree

namespace Node

/-- Whether the node's location covers `start..stop`. -/
def covers (n : Node) (start stop : Nat) : Bool :=
  n.location.start ≤ start && stop ≤ n.location.stop

/-- Whether the node covers the range and does not merely end where it starts. -/
def spans (n : Node) (start stop : Nat) : Bool :=
  n.covers start stop && (start < n.location.stop || n.location.start == n.location.stop)

/-- Whether the node's location meets the closed interval from `start` to `stop`. -/
def meets (n : Node) (start stop : Nat) : Bool :=
  start ≤ n.location.stop && n.location.start ≤ stop

end Node

namespace SyntaxNode

/-- What the tree holds about the node. -/
def data (n : SyntaxNode) : Node :=
  n.tree.node n.id

/-- The node of the same tree with another index. -/
def inTree (n : SyntaxNode) (id : Nat) : SyntaxNode :=
  ⟨n.tree, id⟩

/-- The kind of the node. -/
def kind (n : SyntaxNode) : String :=
  n.data.kind

/-- Where the node stands in the source. -/
def location (n : SyntaxNode) : Location :=
  n.data.location

/-- The source text of the node. -/
def text (n : SyntaxNode) : String :=
  Utf8.decodeLossy (n.tree.source.slice n.location.start n.location.stop)

/-- Whether two handles mean one node of one tree of a file. -/
def same (n m : SyntaxNode) : Bool :=
  n.tree.language == m.tree.language && n.tree.occurrence == m.tree.occurrence && n.id == m.id

/-- The kind and the position of the node. -/
def dump (n : SyntaxNode) : String :=
  let l := n.location
  s!"{n.kind} [{l.span.text}] ({l.startPoint.text}-{l.stopPoint.text})"

/-- The node around this one. -/
def parent? (n : SyntaxNode) : Option SyntaxNode :=
  n.data.parent.map n.inTree

/-- The nodes directly below, in order. -/
def children (n : SyntaxNode) : List SyntaxNode :=
  n.data.children.map n.inTree

/-- The named ones of the nodes directly below. -/
def namedChildren (n : SyntaxNode) : List SyntaxNode :=
  n.children.filter fun c => c.data.flags.named

/-- The child at a place. -/
def child? (n : SyntaxNode) (slot : Nat) : Option SyntaxNode :=
  n.data.children[slot]?.map n.inTree

/-- The first child. -/
def firstChild? (n : SyntaxNode) : Option SyntaxNode :=
  n.child? 0

/-- The last child. -/
def lastChild? (n : SyntaxNode) : Option SyntaxNode :=
  n.data.children.getLast?.map n.inTree

/-- The first child that stands under a field. -/
def childByField? (n : SyntaxNode) (field : String) : Option SyntaxNode :=
  n.children.find? fun c => c.data.field == some field

/-- The sibling to the right. -/
def next? (n : SyntaxNode) : Option SyntaxNode := do
  let up ← n.parent?
  up.child? (n.data.slot + 1)

/-- The sibling to the left. -/
def previous? (n : SyntaxNode) : Option SyntaxNode := do
  let up ← n.parent?
  match n.data.slot with
  | 0 => none
  | slot + 1 => up.child? slot

/-- The nearest node that is `wanted`, at most `fuel` moves away. -/
def seek (move : SyntaxNode → Option SyntaxNode) (wanted : Node → Bool) :
    Nat → SyntaxNode → Option SyntaxNode
  | 0, _ => none
  | fuel + 1, n =>
    match move n with
    | none => none
    | some s => if wanted s.data then some s else seek move wanted fuel s

/-- The nearest named sibling to the right. -/
def nextNamed? (n : SyntaxNode) : Option SyntaxNode :=
  n.seek next? (·.flags.named) n.tree.nodes.size

/-- The nearest named sibling to the left. -/
def previousNamed? (n : SyntaxNode) : Option SyntaxNode :=
  n.seek previous? (·.flags.named) n.tree.nodes.size

/-- The node and all its descendants in pre-order. -/
def walk (n : SyntaxNode) : List SyntaxNode :=
  (n.tree.walkFrom n.tree.nodes.size [n.id]).map n.inTree

/-- The strict ancestors, nearest first. -/
def ancestors (n : SyntaxNode) : List SyntaxNode :=
  (n.tree.ancestorsFrom n.tree.nodes.size n.id).map n.inTree

/-- The nearest strict ancestor of one of the kinds. -/
def closest? (n : SyntaxNode) (kinds : List String) : Option SyntaxNode :=
  n.ancestors.find? fun a => kinds.contains a.kind

/-- The strict descendants of some kinds in pre-order, as far as the subtrees that `reaches`
accepts go. -/
def collect (n : SyntaxNode) (kinds : List String) (reaches : Node → Bool) : List SyntaxNode :=
  (n.tree.collectFrom reaches (fun d => kinds.contains d.kind) n.tree.nodes.size
    n.data.children).map n.inTree

/-- The strict descendants of some kinds in pre-order. -/
def descendantsOfType (n : SyntaxNode) (kinds : List String) : List SyntaxNode :=
  n.collect kinds fun _ => true

/-- The strict descendants of some kinds that meet the closed interval of offsets from
`start` to the larger of `start` and `stop`. -/
def descendantsOfTypeIn (n : SyntaxNode) (kinds : List String) (start stop : Nat) :
    List SyntaxNode :=
  n.collect kinds fun d => d.meets start (max start stop)

/-- The strict descendants of some kinds that meet the closed interval between two points,
given in either order. -/
def descendantsOfTypeBetween (n : SyntaxNode) (kinds : List String) (p q : Point) :
    List SyntaxNode :=
  let (lo, hi) := if p.notAfter q then (p, q) else (q, p)
  let source := n.tree.source
  n.collect kinds fun d => d.meets (source.offsetOf lo) (source.offsetOf hi)

/-- The child in which the search for the smallest node around a range goes on: the first
that spans it, else the first that covers it. -/
def toward? (n : SyntaxNode) (start stop : Nat) : Option SyntaxNode :=
  (n.children.find? fun c => c.data.spans start stop).or
    (n.children.find? fun c => c.data.covers start stop)

/-- The nodes below, at most `fuel` of them, in which the search goes on. -/
def descentFrom (start stop : Nat) : Nat → SyntaxNode → List SyntaxNode
  | 0, _ => []
  | fuel + 1, n =>
    match n.toward? start stop with
    | none => []
    | some c => c :: descentFrom start stop fuel c

/-- The nodes from this one down to the smallest around a range; none when this one does not
cover it. -/
def descent (n : SyntaxNode) (start stop : Nat) : List SyntaxNode :=
  if n.data.covers start stop then n :: descentFrom start stop n.tree.nodes.size n else []

/-- The smallest node of the subtree around a range, the ends of which may be swapped. At
the border of two nodes an empty range belongs to the one that starts there. -/
def descendantAt? (n : SyntaxNode) (a b : Nat) : Option SyntaxNode :=
  (n.descent (min a b) (max a b)).getLast?

/-- The smallest named node on the way to the smallest node around a range. -/
def namedDescendantAt? (n : SyntaxNode) (a b : Nat) : Option SyntaxNode :=
  ((n.descent (min a b) (max a b)).filter fun d => d.data.flags.named).getLast?

/-- The smallest node around the range between two points. -/
def descendantBetween? (n : SyntaxNode) (p q : Point) : Option SyntaxNode :=
  n.descendantAt? (n.tree.source.offsetOf p) (n.tree.source.offsetOf q)

/-- The smallest named node on the way to the range between two points. -/
def namedDescendantBetween? (n : SyntaxNode) (p q : Point) : Option SyntaxNode :=
  n.namedDescendantAt? (n.tree.source.offsetOf p) (n.tree.source.offsetOf q)

end SyntaxNode

end Polyglot
