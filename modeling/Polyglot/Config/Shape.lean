import Polyglot.Config.Definition

/-!
# Reading a configuration from a document

A structure is read from a table by the names of its members, or from a list by their order.
Members are taken as they come, and the first that does not fit is the error; members that
are required and not there are reported after that, in the order of declaration. Members that
nobody knows are skipped. A choice between structures has a member `type` that decides it, the
first one in a list.

Formats differ in what they do with a list that is longer than its structure, so `Surplus` is
a parameter.
-/

set_option autoImplicit false

namespace Polyglot

/-- What happens to the items of a list behind those that a structure takes: they are skipped,
refused, or refused with the number of items that belong there. -/
inductive Surplus where
  | skipped
  | refused
  | counted
deriving DecidableEq, Repr

/-- Why a document does not have the expected shape. -/
inductive ShapeError where
  | invalidType (found expected : String)
  | invalidValue (found expected : String)
  | unknownVariant (found : String) (known : List String)
  | missingField (field : String)
  | tooShort (length : Nat) (expected : String)
  | tooLong (length : Nat)
  | notExactly (length expected : Nat)
  | unknownLanguage (cause : Language.Unknown)
deriving DecidableEq, Repr

namespace ShapeError

/-- A number of things. -/
def counted (n : Nat) (thing : String) : String :=
  if n = 1 then s!"1 {thing}" else s!"{n} {thing}s"

/-- The message for the error. -/
def message : ShapeError → String
  | .invalidType found expected => "invalid type: " ++ found ++ ", expected " ++ expected
  | .invalidValue found expected => "invalid value: " ++ found ++ ", expected " ++ expected
  | .unknownVariant found known =>
    "unknown variant `" ++ found ++ "`, expected one of " ++
      ", ".intercalate (known.map fun k => "`" ++ k ++ "`")
  | .missingField field => "missing field `" ++ field ++ "`"
  | .tooShort length expected => s!"invalid length {length}, expected {expected}"
  | .tooLong length => s!"invalid length {length}, expected fewer elements in array"
  | .notExactly length expected =>
    s!"invalid length {length}, expected " ++ counted expected "element" ++ " in sequence"
  | .unknownLanguage cause => cause.message

end ShapeError

namespace Data

/-- What a document is, for an error message. A point in time is a table of its own kind. -/
def described : Data → String
  | .null => "null"
  | .bool b => if b then "boolean `true`" else "boolean `false`"
  | .integer i => "integer `" ++ toString i ++ "`"
  | .float s => "floating point `" ++ s ++ "`"
  | .moment _ => "map"
  | .text s => "string " ++ Text.quoted s
  | .list _ => "sequence"
  | .table _ _ => "map"

/-- A document where something else was expected. -/
def mismatch {α : Type} (d : Data) (expected : String) : Except ShapeError α :=
  .error (.invalidType d.described expected)

/-- A text. -/
def asText : Data → Except ShapeError String
  | .text s => .ok s
  | d => d.mismatch "a string"

/-- A truth value. -/
def asBool : Data → Except ShapeError Bool
  | .bool b => .ok b
  | d => d.mismatch "a boolean"

/-- A number that is not negative. -/
def asNatural : Data → Except ShapeError Nat
  | .integer i =>
    if i < 0 then .error (.invalidValue (described (.integer i)) "usize") else .ok i.toNat
  | d => d.mismatch "usize"

/-- The name of a language. -/
def asLanguage (d : Data) : Except ShapeError Language := do
  (Language.parse (← d.asText)).mapError .unknownLanguage

/-- A list. -/
def asList {α : Type} (item : Data → Except ShapeError α) : Data → Except ShapeError (List α)
  | .list items => items.mapM item
  | d => d.mismatch "a sequence"

/-- Something or nothing. -/
def asOptional {α : Type} (f : Data → Except ShapeError α) : Data → Except ShapeError (Option α)
  | .null => .ok none
  | d => (f d).map some

/-- The members of a table. -/
def members? : Data → Option (List (String × Data))
  | .table keys values => some (keys.zip values)
  | .moment s => some [("$__toml_private_datetime", .text s)]
  | _ => none

end Data

/-- How a structure is read: its members in order, each with whether it has to be there, the
value it has before any is read, and what reading a member does to it. -/
structure Shape (α : Type) where
  label : String
  members : List (String × Bool)
  blank : α
  read : α → String → Data → Except ShapeError α

namespace Shape

variable {α : Type}

/-- Reads the items of a list for the members in order. -/
def ofItems (s : Shape α) (surplus : Surplus) (total : Nat) :
    α → Nat → List (String × Bool) → List Data → Except ShapeError α
  | value, taken, [], rest =>
    if rest.isEmpty then .ok value
    else match surplus with
      | .skipped => .ok value
      | .refused => .error (.tooLong total)
      | .counted => .error (.notExactly total taken)
  | value, taken, (_, required) :: more, [] =>
    if required then
      .error (.tooShort taken (s.label ++ " with " ++
        ShapeError.counted s.members.length "element"))
    else ofItems s surplus total value (taken + 1) more []
  | value, taken, (name, _) :: more, item :: rest => do
    ofItems s surplus total (← s.read value name item) (taken + 1) more rest

/-- Reads the members of a table as they come. -/
def ofMembers (s : Shape α) (members : List (String × Data)) : Except ShapeError α := do
  let value ← members.foldlM (fun value m =>
    if s.members.any fun k => k.1 == m.1 then s.read value m.1 m.2 else .ok value) s.blank
  match s.members.find? fun k => k.2 && !(members.any fun m => m.1 == k.1) with
  | some (name, _) => .error (.missingField name)
  | none => .ok value

/-- Reads a structure. -/
def ofData (s : Shape α) (surplus : Surplus) (d : Data) : Except ShapeError α :=
  match d.members? with
  | some members => s.ofMembers members
  | none =>
    match d with
    | .list items => s.ofItems surplus items.length s.blank 0 s.members items
    | _ => d.mismatch s.label

end Shape

/-- What comes of a choice: its tag, and the rest of its members or items. -/
inductive Tagged where
  | members (tag : Data) (rest : List (String × Data))
  | items (tag : Data) (rest : List Data)

namespace Tagged

/-- The tag. -/
def tag : Tagged → Data
  | .members tag _ => tag
  | .items tag _ => tag

/-- Takes the tag out of a document. -/
def ofData (label : String) (d : Data) : Except ShapeError Tagged :=
  match d.members? with
  | some found =>
    match found.find? fun m => m.1 == "type" with
    | some (_, tag) => .ok (.members tag (found.filter fun m => m.1 != "type"))
    | none => .error (.missingField "type")
  | none =>
    match d with
    | .list (tag :: rest) => .ok (.items tag rest)
    | .list [] => .error (.missingField "type")
    | _ => d.mismatch label

/-- The chosen variant, which has to be one of those known. -/
def variant (t : Tagged) (known : List String) : Except ShapeError String :=
  match t.tag with
  | .text s => if known.contains s then .ok s else .error (.unknownVariant s known)
  | d => d.mismatch "variant identifier"

/-- Reads the members of the variant. -/
def read {α : Type} (t : Tagged) (s : Shape α) : Except ShapeError α :=
  match t with
  | .members _ rest => s.ofMembers rest
  | .items _ rest => s.ofItems .counted rest.length s.blank 0 s.members rest

/-- Reads a variant without members. Members are skipped, items are not. -/
def nothing {α : Type} (t : Tagged) (value : α) : Except ShapeError α :=
  match t with
  | .members _ _ => .ok value
  | .items _ rest => if rest.isEmpty then .ok value else .error (.notExactly rest.length 0)

end Tagged

namespace ExtractorDef

/-- The types of extractors. -/
def types : List String :=
  ["html-script", "html-style", "html-attribute", "kinds"]

/-- The members of an attribute extractor. -/
def attributeShape : Shape String :=
  ⟨"struct variant ExtractorDef::HtmlAttribute", [("name", true)], "", fun _ _ d => d.asText⟩

/-- The members of an extractor by kinds. -/
def kindsShape : Shape (List String × List String) :=
  ⟨"struct variant ExtractorDef::Kinds", [("kinds", true), ("within", false)], ([], []),
    fun value name d => do
      let texts ← d.asList Data.asText
      return if name == "kinds" then (texts, value.2) else (value.1, texts)⟩

/-- Reads an extractor. -/
def ofData (d : Data) : Except ShapeError ExtractorDef := do
  let t ← Tagged.ofData "internally tagged enum ExtractorDef" d
  match ← t.variant types with
  | "html-script" => t.nothing .htmlScript
  | "html-style" => t.nothing .htmlStyle
  | "html-attribute" => return .htmlAttribute (← t.read attributeShape)
  | _ =>
    let (wanted, within) ← t.read kindsShape
    return .kinds wanted within

end ExtractorDef

namespace EditorDef

/-- The types of editors. -/
def types : List String :=
  ["strip-comment-wrapper", "wrap", "blank-delimited"]

/-- The members of a pair of texts. -/
def pairShape (label first second : String) (required : Bool) : Shape (String × String) :=
  ⟨label, [(first, required), (second, required)], ("", ""), fun value name d => do
    let text ← d.asText
    return if name == first then (text, value.2) else (value.1, text)⟩

/-- The members of a wrapping editor. -/
def wrapShape : Shape (String × String) :=
  pairShape "struct variant RewriterDef::Wrap" "prefix" "suffix" false

/-- The members of a blanking editor. -/
def blankShape : Shape (String × String) :=
  pairShape "struct variant RewriterDef::BlankDelimited" "open" "close" true

/-- Reads an editor. -/
def ofData (d : Data) : Except ShapeError EditorDef := do
  let t ← Tagged.ofData "internally tagged enum RewriterDef" d
  match ← t.variant types with
  | "strip-comment-wrapper" => t.nothing .stripCommentWrapper
  | "wrap" =>
    let (before, behind) ← t.read wrapShape
    return .wrap before behind
  | _ =>
    let (opening, closing) ← t.read blankShape
    return .blankDelimited opening closing

end EditorDef

/-- The members of a chain definition. -/
def ChainDefinition.shape : Shape ChainDefinition :=
  ⟨"struct ChainDefinition",
    [("name", true), ("entry", true), ("extensions", false), ("children", false),
      ("extract", false), ("rewrite", false)],
    ⟨"", .html, [], [], none, none⟩,
    fun c name d =>
      match name with
      | "name" => return { c with name := ← d.asText }
      | "entry" => return { c with entry := ← d.asLanguage }
      | "extensions" => return { c with extensions := ← d.asList Data.asText }
      | "children" => return { c with children := ← d.asList Data.asText }
      | "extract" => return { c with extract := ← d.asOptional ExtractorDef.ofData }
      | _ => return { c with edit := ← d.asOptional EditorDef.ofData }⟩

/-- The members of a rule definition. -/
def RuleDefinition.shape : Shape RuleDefinition :=
  ⟨"struct RuleDefinition",
    [("name", true), ("description", false), ("chain", false), ("lang", false),
      ("target", false), ("query", true), ("title", false)],
    ⟨"", none, none, none, none, "", none⟩,
    fun r name d =>
      match name with
      | "name" => return { r with name := ← d.asText }
      | "description" => return { r with description := ← d.asOptional Data.asText }
      | "chain" => return { r with chain := ← d.asOptional Data.asText }
      | "lang" => return { r with lang := ← d.asOptional Data.asLanguage }
      | "target" => return { r with target := ← d.asOptional Data.asLanguage }
      | "query" => return { r with query := ← d.asText }
      | _ => return { r with title := ← d.asOptional Data.asText }⟩

/-- The members of the engine settings. -/
def EngineSettings.shape : Shape EngineSettings :=
  ⟨"struct EngineSettings", [("parallel", false), ("jobs", false)], EngineSettings.standard,
    fun e name d =>
      match name with
      | "parallel" => return { e with parallel := ← d.asBool }
      | _ => return { e with jobs := ← d.asNatural }⟩

namespace LintConfig

/-- The members of a configuration. -/
def shape (surplus : Surplus) : Shape LintConfig :=
  ⟨"struct LintConfig", [("engine", false), ("chains", false), ("rules", false)],
    ⟨EngineSettings.standard, [], []⟩,
    fun c name d =>
      match name with
      | "engine" => return { c with engine := ← EngineSettings.shape.ofData surplus d }
      | "chains" => return { c with chains := ← d.asList (ChainDefinition.shape.ofData surplus) }
      | _ => return { c with rules := ← d.asList (RuleDefinition.shape.ofData surplus) }⟩

/-- Reads a configuration. -/
def ofData (surplus : Surplus) (d : Data) : Except ShapeError LintConfig :=
  (shape surplus).ofData surplus d

end LintConfig

end Polyglot
