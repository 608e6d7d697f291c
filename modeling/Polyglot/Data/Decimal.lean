import Polyglot.Data
import Polyglot.Double

/-!
# Decimal numbers

Numbers that are not whole are kept in a document as they are printed. A literal stands for a
number of double precision, which is printed with the fewest decimal digits that read back as
the same number: `shortest` looks at the two neighbours of the number with one digit, with two,
and so on, and of two hits takes the nearer. Two layouts are in use. `plain` always writes all
places; `compact` writes very large and very small numbers with an exponent.

The two kinds of document also differ in how they read a literal. TOML takes the nearest number.
JSON takes as many of the digits as fit into 64 bits, rounds them, and then scales the result by
a power of ten, which rounds once more and can end up next to the nearest number.
-/

set_option autoImplicit false

namespace Polyglot

/-- The number `digits * 10 ^ exponent`. -/
structure Decimal where
  digits : Nat
  exponent : Int
deriving DecidableEq, Repr

namespace Decimal

/-- The number of decimal digits. -/
def width (n : Nat) : Nat :=
  (Nat.toDigits 10 n).length

/-- The nearest number of double precision. -/
def toDouble (d : Decimal) : Double :=
  .nearest (d.digits * Nat.pow 10 d.exponent.toNat) (Nat.pow 10 (-d.exponent).toNat)

/-- A number of double precision in full. -/
def ofDouble (x : Double) : Decimal :=
  if x.exponent < 0 then ⟨x.mantissa * Nat.pow 5 x.exponent.natAbs, x.exponent⟩
  else ⟨x.mantissa * Nat.pow 2 x.exponent.natAbs, 0⟩

/-- The number without zeros at the end of its digits; `fuel` of them at most. -/
def strip : Nat → Decimal → Decimal
  | 0, d => d
  | fuel + 1, d =>
    if d.digits % 10 = 0 then strip fuel ⟨d.digits / 10, d.exponent + 1⟩ else d

/-- The nearer of the two neighbours of `x` on a grid of `n` digits that read back as `x`;
`exact` is `x` in full. -/
def onGrid? (x : Double) (exact : Decimal) (n : Nat) : Option Decimal :=
  let cut := width exact.digits - n
  let unit := Nat.pow 10 cut
  let low : Decimal := ⟨exact.digits / unit, exact.exponent + cut⟩
  let high : Decimal := ⟨exact.digits / unit + 1, exact.exponent + cut⟩
  let rest := 2 * (exact.digits % unit)
  let lowIsNearer := rest < unit || (rest == unit && low.digits % 2 == 0)
  match low.toDouble == x, high.toDouble == x with
  | true, true => some (if lowIsNearer then low else high)
  | true, false => some low
  | false, true => some high
  | false, false => none

/-- The shortest decimal number that reads back as `x`. Seventeen digits are enough for every
number. -/
def shortest (x : Double) : Decimal :=
  if x.isZero then ⟨0, 0⟩
  else
    let exact := ofDouble x
    let found := ((List.range 17).findSome? fun n => onGrid? x exact (n + 1)).getD exact
    strip (width found.digits) found

/-- Some zeros. -/
def zeros (n : Nat) : String :=
  String.ofList (List.replicate n '0')

/-- All places of the number, at least one of them behind the point. -/
def plain (d : Decimal) : String :=
  let text := toString d.digits
  if 0 ≤ d.exponent then text ++ zeros d.exponent.natAbs ++ ".0"
  else
    let places := d.exponent.natAbs
    let padded := (zeros (places + 1 - text.length) ++ text).toList
    String.ofList (padded.take (padded.length - places)) ++ "." ++
      String.ofList (padded.drop (padded.length - places))

/-- The exponent of the first digit. -/
def leading (d : Decimal) : Int :=
  d.exponent + width d.digits - 1

/-- The number with one digit before the point and an exponent. -/
def scientific (d : Decimal) : String :=
  let fraction := (toString d.digits).toList.drop 1
  String.ofList ((toString d.digits).toList.take 1) ++
    (if fraction.isEmpty then "" else "." ++ String.ofList fraction) ++
    "e" ++ (if d.leading < 0 then "-" else "+") ++ toString d.leading.natAbs

/-- Numbers from `0.00001` up to sixteen places before the point are written plainly, all
others with an exponent. -/
def compact (d : Decimal) : String :=
  if d.digits = 0 || (-5 ≤ d.leading && d.leading ≤ 15) then d.plain else d.scientific

/-- The value of decimal digits. -/
def ofDigits (cs : List Char) : Nat :=
  cs.foldl (fun n c => 10 * n + (c.toNat - '0'.toNat)) 0

/-- The parts of a literal without its sign: digits, maybe a fraction, maybe an exponent. -/
structure Literal where
  whole : List Char
  fraction : List Char
  exponent : Int

/-- Takes a literal apart. -/
def Literal.ofChars (cs : List Char) : Literal :=
  let rest := cs.dropWhile Char.isDigit
  let exponent := (rest.dropWhile fun c => c != 'e' && c != 'E').drop 1
  let amount : Int := ofDigits (exponent.filter Char.isDigit)
  ⟨cs.takeWhile Char.isDigit,
    if rest.head? = some '.' then (rest.drop 1).takeWhile Char.isDigit else [],
    if exponent.head? = some '-' then -amount else amount⟩

/-- The number that a literal says. -/
def Literal.value (l : Literal) : Decimal :=
  ⟨ofDigits (l.whole ++ l.fraction), l.exponent - l.fraction.length⟩

/-- Adds digits to the end of `n` until one would not fit into 64 bits; with the digits left. -/
def takeDigits (n : Nat) : List Char → Nat × List Char
  | [] => (n, [])
  | c :: rest =>
    let more := 10 * n + (c.toNat - '0'.toNat)
    if more < Nat.pow 2 64 then takeDigits more rest else (n, c :: rest)

/-- The digits that fit into 64 bits. Digits left over before the point count as places only,
those after it not at all; but after such digits the fraction is tried again from its start. -/
def Literal.cut (l : Literal) : Decimal :=
  let (whole, skipped) := takeDigits 0 l.whole
  let (digits, unread) := takeDigits whole l.fraction
  ⟨digits, l.exponent + skipped.length - (l.fraction.length - unread.length : Nat)⟩

/-- The number of double precision that digits and exponent give one after the other, if there
is one. -/
def scaled? (d : Decimal) : Option Double :=
  (Double.ofNat d.digits).shift? d.exponent

end Decimal

namespace Data

/-- The sign of a literal and what follows it. -/
def signed (literal : String) : String × List Char :=
  match literal.toList with
  | '-' :: rest => ("-", rest)
  | cs => ("", cs)

/-- The number that a JSON literal stands for: an integer if it is written as one, is not a
negative zero, and fits into 64 bits with or without a sign. None when it is beyond the largest
number. -/
def ofJsonNumber? (literal : String) : Option Data :=
  let (sign, rest) := signed literal
  let n := Decimal.ofDigits rest
  if rest.all Char.isDigit && sign == "" && n < Nat.pow 2 64 then some (.integer n)
  else if rest.all Char.isDigit && sign == "-" && 0 < n && n ≤ Nat.pow 2 63 then some (.integer (-n))
  else (Decimal.Literal.ofChars rest).cut.scaled?.map fun x =>
    .float (sign ++ (Decimal.shortest x).compact)

/-- The number that a TOML literal for a number which is not whole stands for. -/
def ofTomlFloat (literal : String) : Data :=
  let (sign, rest) := signed literal
  if rest.head?.any Char.isDigit then
    .float (sign ++ (Decimal.shortest (Decimal.Literal.ofChars rest).value.toDouble).plain)
  else if rest == "nan".toList then .float "NaN"
  else .float literal

end Data

end Polyglot
