import Polyglot.Edit
import Polyglot.Syntax.Tree
import Polyglot.Text.Quoted

/-!
# Chains

A chain says which grammar governs which region of a file. Its root parses the whole buffer;
each nested chain has an extractor, which picks ranges out of the bytes that its parent was
parsed from, and may have an editor, which prepares such a range before it is parsed.
-/

set_option autoImplicit false

namespace Polyglot

/-- Picks the ranges of a tree's parsed bytes that belong to a nested language. -/
structure Extractor where
  name : String
  ranges : SyntaxTree → Bytes → List Span

/-- The dump of an extractor. -/
def Extractor.dump (x : Extractor) : String :=
  "RangeExtractor(" ++ Text.quoted x.name ++ ")"

/-- Why an editor gives no edit. -/
inductive EditFailure where
  | splice (error : SpliceError)
  | refused (message : String)
deriving DecidableEq, Repr

/-- The message for a failed edit. -/
def EditFailure.message : EditFailure → String
  | .splice e => e.message
  | .refused text => text

/-- Turns the bytes of a range into the bytes that are parsed. It may look at the tree that
the range was picked out of. -/
structure Editor where
  name : String
  edit : Bytes → SyntaxTree → Except EditFailure Edit

/-- The dump of an editor. -/
def Editor.dump (w : Editor) : String :=
  "SourceRewriter(" ++ Text.quoted w.name ++ ")"

/-- Why a chain cannot be resolved. -/
inductive ChainError where
  | rootExtractor (language : Language)
  | missingExtractor (language : Language)
  | invalidRange (language : Language) (extractor : String) (range : Span) (length : Nat)
  | parse (language : Language) (occurrence : Nat) (cause : SyntaxError)
  | edit (language : Language) (occurrence : Nat) (editor : String) (cause : EditFailure)
deriving DecidableEq, Repr

namespace ChainError

/-- The message for the error. -/
def message : ChainError → String
  | .rootExtractor l => "root " ++ l.name ++ " chain must not declare a range extractor"
  | .missingExtractor l => "nested " ++ l.name ++ " chain has no range extractor"
  | .invalidRange l x range length =>
    l.name ++ " extractor '" ++ x ++ "' returned range " ++ range.text ++
      s!" outside a parent of {length} bytes"
  | .parse l n cause => "failed to parse " ++ l.name ++ s!" occurrence {n}: " ++ cause.message
  | .edit l n w cause =>
    "rewriter '" ++ w ++ "' failed for " ++ l.name ++ s!" occurrence {n}: " ++ cause.message

/-- The messages of what lies behind the error. -/
def causes : ChainError → List String
  | .parse _ _ cause => [cause.message]
  | .edit _ _ _ cause => [cause.message]
  | _ => []

end ChainError

/-- A chain: the language of the region, the chains nested in it, how the region is found in
its parent, and how it is prepared. -/
inductive ChainSpec where
  | mk (entry : Language) (children : List ChainSpec) (extractor : Option Extractor)
      (editor : Option Editor)

namespace ChainSpec

/-- The language that parses the region. -/
def entry : ChainSpec → Language
  | .mk entry _ _ _ => entry

/-- The nested chains in order. -/
def children : ChainSpec → List ChainSpec
  | .mk _ children _ _ => children

/-- How the region is found. -/
def extractor : ChainSpec → Option Extractor
  | .mk _ _ extractor _ => extractor

/-- How the region is prepared. -/
def editor : ChainSpec → Option Editor
  | .mk _ _ _ editor => editor

/-- The chain that parses a whole buffer with one language. -/
def single (entry : Language) : ChainSpec :=
  .mk entry [] none none

mutual

/-- The language of a chain without extractor: this one, or one nested in it. -/
def unextracted? : ChainSpec → Option Language
  | .mk entry children extractor _ =>
    if extractor.isNone then some entry else unextractedAmong? children

/-- The language of a chain without extractor, looked for from the last chain on. -/
def unextractedAmong? : List ChainSpec → Option Language
  | [] => none
  | s :: rest => (unextractedAmong? rest).or (unextracted? s)

end

/-- Checks the shape of a chain: the root has no extractor, every nested chain has one. -/
def validate (s : ChainSpec) : Except ChainError Unit :=
  if s.extractor.isSome then .error (.rootExtractor s.entry)
  else match unextractedAmong? s.children with
    | some l => .error (.missingExtractor l)
    | none => .ok ()

mutual

/-- The given languages and those of the chain, each once, depth first. -/
def addLanguages (found : List Language) : ChainSpec → List Language
  | .mk entry children _ _ =>
    addLanguagesOf (if found.contains entry then found else found ++ [entry]) children

/-- The given languages and those of the chains, each once, depth first. -/
def addLanguagesOf (found : List Language) : List ChainSpec → List Language
  | [] => found
  | s :: rest => addLanguagesOf (addLanguages found s) rest

end

/-- Every language that the chain can produce, each once, depth first. -/
def languages (s : ChainSpec) : List Language :=
  addLanguages [] s

mutual

/-- The dump of a chain. -/
def dump : ChainSpec → String
  | .mk entry children extractor editor =>
    "ChainSpec \x7b entry: " ++ entry.label ++ ", children: " ++ Text.listed (dumpAll children) ++
      ", extractor: " ++ Text.optional (extractor.map (·.dump)) ++
      ", rewriter: " ++ Text.optional (editor.map (·.dump)) ++ " \x7d"

/-- The dumps of some chains. -/
def dumpAll : List ChainSpec → List String
  | [] => []
  | s :: rest => dump s :: dumpAll rest

end

end ChainSpec

end Polyglot
