import Polyglot.Chain.Spec
import Polyglot.Syntax.Navigation

/-!
# The extractors at hand

Scripts, style sheets and attributes of a page, and nodes of given kinds. Each range is the
span of a node in the bytes its tree was parsed from.
-/

set_option autoImplicit false

namespace Polyglot.Extractor

/-- The declared types of a script that holds JavaScript. -/
def scriptTypes : List String :=
  ["text/javascript", "application/javascript", "text/ecmascript", "application/ecmascript",
    "module"]

/-- The first child of a kind. -/
def childOfKind? (n : SyntaxNode) (kind : String) : Option SyntaxNode :=
  n.children.find? fun c => c.kind == kind

/-- The name of an attribute as it stands in the bytes. -/
def attributeName? (attr : SyntaxNode) (bytes : Bytes) : Option String := do
  let name ← childOfKind? attr "attribute_name"
  let text ← bytes.at? name.data.parsed.start name.data.parsed.stop
  Utf8.decode? text

/-- Whether an attribute has a name, in any case. -/
def isNamed (attr : SyntaxNode) (bytes : Bytes) (name : String) : Bool :=
  (attributeName? attr bytes).any fun n => Text.sameLetters n name

/-- The value of an attribute without quotes. -/
def attributeValue? (attr : SyntaxNode) : Option Span :=
  attr.children.findSome? fun c =>
    if c.kind == "attribute_value" then some c.data.parsed
    else if c.kind == "quoted_attribute_value" then
      (childOfKind? c "attribute_value").map fun v => v.data.parsed
    else none

/-- Whether a script element declares JavaScript or nothing. A value that does not lie in the
bytes declares something else. -/
def isJavaScript (script : SyntaxNode) (bytes : Bytes) : Bool :=
  match childOfKind? script "start_tag" with
  | none => true
  | some tag =>
    let declared := tag.children.find? fun c => c.kind == "attribute" && isNamed c bytes "type"
    match declared.bind attributeValue? with
    | none => true
    | some span =>
      match bytes.at? span.start span.stop with
      | none => false
      | some value =>
        let declaredType := Text.lower (Text.trim (Utf8.decodeLossy value))
        declaredType == "" || scriptTypes.contains declaredType

/-- The text between the tags of an element. -/
def rawText? (element : SyntaxNode) : Option Span :=
  (childOfKind? element "raw_text").map fun c => c.data.parsed

/-- The bodies of script elements that hold JavaScript. -/
def htmlScript : Extractor :=
  ⟨"html-script", fun tree bytes =>
    ((tree.root.descendantsOfType ["script_element"]).filter fun e =>
      isJavaScript e bytes).filterMap rawText?⟩

/-- The bodies of style elements. -/
def htmlStyle : Extractor :=
  ⟨"html-style", fun tree _ => (tree.root.descendantsOfType ["style_element"]).filterMap rawText?⟩

/-- The values of all attributes of a name, in any case, without quotes. -/
def htmlAttribute (name : String) : Extractor :=
  ⟨"html-attribute[" ++ name ++ "]", fun tree bytes =>
    ((tree.root.descendantsOfType ["attribute"]).filter fun a =>
      isNamed a bytes name).filterMap attributeValue?⟩

/-- Appends the span of a node, unless the node before it reaches as far. -/
def appendOutside (found : List Span) (span : Span) : List Span :=
  match found.getLast? with
  | some last => if span.stop ≤ last.stop then found else found ++ [span]
  | none => [span]

/-- Whether a node is of one of the kinds and, if any are given, within one of others. -/
def qualifies (kinds within : List String) (n : SyntaxNode) : Bool :=
  kinds.contains n.kind && (within.isEmpty || (n.closest? within).isSome)

/-- The nodes of given kinds, if wanted only those within a node of other kinds. Nodes inside
one that was picked are not picked again. -/
def ofKinds (kinds within : List String) : Extractor :=
  ⟨"kinds[" ++ ",".intercalate kinds ++ "]", fun tree _ =>
    ((tree.root.walk.filter (qualifies kinds within)).map fun n => n.data.parsed).foldl
      appendOutside []⟩

end Polyglot.Extractor
