import Polyglot.Path
import Polyglot.Text.Similarity

/-!
# Languages

The closed set of languages that a file or a region of it can be written in, with their
names, the aliases they answer to, and the file extensions that suggest them. A name that
is not known comes with the closest known one, if one is close enough.
-/

set_option autoImplicit false

namespace Polyglot

/-- A language with a grammar. -/
inductive Language where
  | html
  | css
  | javaScript
  | typeScript
  | json
  | php
deriving DecidableEq, Repr, Inhabited

namespace Language

/-- Every language, in declaration order. -/
def all : List Language :=
  [.html, .css, .javaScript, .typeScript, .json, .php]

/-- The name used in configuration and output. -/
def name : Language → String
  | .html => "html"
  | .css => "css"
  | .javaScript => "javascript"
  | .typeScript => "typescript"
  | .json => "json"
  | .php => "php"

/-- The name used in the dump of a value. -/
def label : Language → String
  | .html => "Html"
  | .css => "Css"
  | .javaScript => "JavaScript"
  | .typeScript => "TypeScript"
  | .json => "Json"
  | .php => "Php"

/-- The language that a name or an alias in lower case stands for. -/
def ofAlias? : String → Option Language
  | "html" | "markup" => some .html
  | "css" | "style" => some .css
  | "javascript" | "js" | "script" => some .javaScript
  | "typescript" | "ts" => some .typeScript
  | "json" => some .json
  | "php" => some .php
  | _ => none

/-- A name that stands for no language. -/
structure Unknown where
  input : String
  suggestion : Option String
deriving DecidableEq, Repr

/-- The message for an unknown name. -/
def Unknown.message (e : Unknown) : String :=
  "unknown language '" ++ e.input ++ "'" ++
    match e.suggestion with
    | some known => " (did you mean '" ++ known ++ "'?)"
    | none => ""

/-- The later of two scored names unless the earlier scores higher. -/
def better (best : Option (String × Double)) (next : String × Double) :
    Option (String × Double) :=
  match best with
  | some b => if next.2.less b.2 then some b else some next
  | none => some next

/-- The known name most like `input`, of equals the last, if its score reaches 0.8. -/
def closest? (input : String) : Option String :=
  let scored := all.map fun l => (l.name, Text.jaroWinkler input l.name)
  ((scored.filter fun s => !s.2.less (.nearest 8 10)).foldl better none).map (·.1)

/-- Reads a name, without the white space around it and in any case. -/
def parse (input : String) : Except Unknown Language :=
  let normal := Text.lower (Text.trim input)
  match ofAlias? normal with
  | some l => .ok l
  | none => .error ⟨input, closest? normal⟩

/-- The language that a file extension suggests, in any case. -/
def ofExtension? (ext : String) : Option Language :=
  match Text.lower ext with
  | "html" | "htm" | "xhtml" => some .html
  | "css" => some .css
  | "js" | "mjs" | "cjs" | "jsx" => some .javaScript
  | "ts" | "mts" | "cts" => some .typeScript
  | "json" => some .json
  | "php" | "phtml" => some .php
  | _ => none

/-- The language that the extension of a path suggests. -/
def ofPath? (p : Path) : Option Language :=
  p.extension?.bind ofExtension?

end Language

end Polyglot
