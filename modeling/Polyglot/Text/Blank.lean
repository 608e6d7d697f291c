/-!
# White space

The characters with the property White_Space, and the text without those at its ends.
-/

set_option autoImplicit false

namespace Polyglot.Text

/-- The first and last code points of each run of white space. -/
def blankRuns : List (Nat × Nat) :=
  [(0x09, 0x0D), (0x20, 0x20), (0x85, 0x85), (0xA0, 0xA0), (0x1680, 0x1680), (0x2000, 0x200A),
    (0x2028, 0x2029), (0x202F, 0x202F), (0x205F, 0x205F), (0x3000, 0x3000)]

/-- Whether a character is white space. -/
def isBlank (c : Char) : Bool :=
  blankRuns.any fun run => run.1 ≤ c.toNat && c.toNat ≤ run.2

/-- The characters of a text without the white space around them. -/
def trimmed (s : String) : List Char :=
  ((s.toList.dropWhile isBlank).reverse.dropWhile isBlank).reverse

/-- The text without the white space around it. -/
def trim (s : String) : String :=
  String.ofList (trimmed s)

/-- Whether nothing but white space is there. -/
def isBlankText (s : String) : Bool :=
  s.toList.all isBlank

/-- The text with `A` to `Z` in lower case; other letters keep their case. -/
def lower (s : String) : String :=
  String.ofList (s.toList.map Char.toLower)

/-- Equality up to the case of `A` to `Z`. -/
def sameLetters (s t : String) : Bool :=
  lower s == lower t

end Polyglot.Text
