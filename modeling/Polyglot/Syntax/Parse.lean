import Polyglot.Bytes
import Polyglot.Span
import Polyglot.Syntax.Error

/-!
# Parses

What a grammar gives for some bytes: an ordered tree of nodes, each with a number of its own,
a kind, flags, the field under which its parent holds it, and the span it takes up in the
parsed bytes. A grammar is a function, so the same bytes always parse alike.
-/

set_option autoImplicit false

namespace Polyglot

/-- The properties of a node that hold or do not hold. -/
structure NodeFlags where
  named : Bool
  error : Bool
  missing : Bool
  extra : Bool
  hasError : Bool
deriving DecidableEq, Repr, Inhabited

/-- What a grammar says about one node. -/
structure ParseNode where
  id : Nat
  kind : String
  flags : NodeFlags
  field : Option String
  span : Span
deriving DecidableEq, Repr, Inhabited

/-- A node with its children in order. -/
inductive ParseTree where
  | node (label : ParseNode) (children : List ParseTree)
deriving Inhabited

namespace ParseTree

/-- What the grammar says about the root. -/
def label : ParseTree → ParseNode
  | .node label _ => label

/-- The children of the root. -/
def children : ParseTree → List ParseTree
  | .node _ children => children

mutual

/-- The number of nodes. -/
def size : ParseTree → Nat
  | .node _ children => 1 + sizeAll children

/-- The number of nodes of all trees together. -/
def sizeAll : List ParseTree → Nat
  | [] => 0
  | t :: rest => size t + sizeAll rest

end

theorem sizeAll_append (l r : List ParseTree) : sizeAll (l ++ r) = sizeAll l + sizeAll r := by
  induction l with
  | nil => simp [sizeAll]
  | cons t l ih =>
    simp only [List.cons_append, sizeAll, ih]
    omega

mutual

/-- Every node, each before its children and they before their right siblings. -/
def preorder : ParseTree → List ParseNode
  | .node label children => label :: preorderAll children

/-- The nodes of all trees, tree after tree. -/
def preorderAll : List ParseTree → List ParseNode
  | [] => []
  | t :: rest => preorder t ++ preorderAll rest

end

end ParseTree

/-- A tree, and the nested form in which it is printed. -/
structure Parse where
  root : ParseTree
  sexp : String
deriving Inhabited

/-- Turns bytes of a language into a tree. -/
abbrev Grammar := Language → Bytes → Except SyntaxError Parse

end Polyglot
