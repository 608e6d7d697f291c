/-!
# Documents

The value of a configuration file or a report: texts, numbers, truth values, lists and
tables. A table keeps its members in the order in which they are written. `pretty` writes a
document as indented JSON, with the members of each table sorted by key.
-/

set_option autoImplicit false

namespace Polyglot

/-- A document. Numbers that are not whole and points in time are kept as they are printed. -/
inductive Data where
  | null
  | bool (b : Bool)
  | integer (i : Int)
  | float (text : String)
  | moment (text : String)
  | text (s : String)
  | list (items : List Data)
  | table (keys : List String) (values : List Data)
deriving Inhabited

namespace Data

/-- The table with the given members. -/
def ofMembers (members : List (String × Data)) : Data :=
  .table (members.map (·.1)) (members.map (·.2))

/-- A text or nothing. -/
def optional {α : Type} (f : α → Data) : Option α → Data
  | none => .null
  | some a => f a

/-- A natural number. -/
def natural (n : Nat) : Data :=
  .integer (Int.ofNat n)

/-- A character of a JSON text: quotes, backslashes and controls are escaped. -/
def jsonChar (c : Char) : List Char :=
  if c == '"' then ['\\', '"']
  else if c == '\\' then ['\\', '\\']
  else if c == '\n' then ['\\', 'n']
  else if c == '\r' then ['\\', 'r']
  else if c == '\t' then ['\\', 't']
  else if c.toNat == 8 then ['\\', 'b']
  else if c.toNat == 12 then ['\\', 'f']
  else if c.toNat < 32 then
    ['\\', 'u', '0', '0'] ++ (if c.toNat < 16 then ['0'] else []) ++ Nat.toDigits 16 c.toNat
  else [c]

/-- A JSON text with its quotes. -/
def jsonText (s : String) : String :=
  String.ofList ('"' :: s.toList.flatMap jsonChar ++ ['"'])

/-- The blanks before a line at a depth. -/
def indent (depth : Nat) : String :=
  String.ofList (List.replicate (2 * depth) ' ')

/-- Some lines between brackets, one deeper than the brackets. -/
def enclosed (opening closing : String) (depth : Nat) (lines : List String) : String :=
  if lines.isEmpty then opening ++ closing
  else
    opening ++ "\n" ++ ",\n".intercalate (lines.map (indent (depth + 1) ++ ·)) ++ "\n" ++
      indent depth ++ closing

/-- The members of a table by key. -/
def sortedMembers (members : List (String × String)) : List (String × String) :=
  members.mergeSort fun a b => a.1 ≤ b.1

mutual

/-- The document as indented JSON. -/
def pretty (depth : Nat) : Data → String
  | .null => "null"
  | .bool b => if b then "true" else "false"
  | .integer i => toString i
  | .float s => s
  | .moment s => jsonText s
  | .text s => jsonText s
  | .list items => enclosed "[" "]" depth (prettyAll (depth + 1) items)
  | .table keys values =>
    enclosed "\x7b" "\x7d" depth
      ((sortedMembers (keys.zip (prettyAll (depth + 1) values))).map fun m =>
        jsonText m.1 ++ ": " ++ m.2)

/-- The documents of a list as indented JSON. -/
def prettyAll (depth : Nat) : List Data → List String
  | [] => []
  | d :: rest => pretty depth d :: prettyAll depth rest

end

end Data

end Polyglot
