/-!
# Numbers of double precision

A number without its sign is `mantissa * 2 ^ exponent`. Its mantissa has fifty-three bits, and
fewer only at the lowest exponent, so that each number has one form. Arithmetic goes by exact
fractions: `nearest` alone rounds, to the closest number and from the middle to the one with an
even mantissa. Exponents have no upper end here; `isFinite` tells which numbers exist.
-/

set_option autoImplicit false

namespace Polyglot

/-- The number `mantissa * 2 ^ exponent`. -/
structure Double where
  mantissa : Nat
  exponent : Int
deriving DecidableEq, Repr

namespace Double

/-- The numerator of the number as a fraction. -/
def numerator (x : Double) : Nat :=
  x.mantissa * Nat.pow 2 x.exponent.toNat

/-- The denominator of the number as a fraction. -/
def denominator (x : Double) : Nat :=
  Nat.pow 2 (-x.exponent).toNat

/-- The fraction `n / d` in units of `2 ^ e`, again as a fraction. -/
def inUnits (n d : Nat) (e : Int) : Nat × Nat :=
  (n * Nat.pow 2 (-e).toNat, d * Nat.pow 2 e.toNat)

/-- The exponent at which `n / d` has fifty-three bits before the point, or the lowest one. The
two logarithms give it up to one. -/
def scale (n d : Nat) : Int :=
  let fine : Int := (n.log2 : Int) - d.log2 - 53
  let units := inUnits n d fine
  max (if Nat.pow 2 53 ≤ units.1 / units.2 then fine + 1 else fine) (-1074)

/-- A fraction as a whole number, from the middle to the even one. -/
def roundToEven (n d : Nat) : Nat :=
  let whole := n / d
  let rest := 2 * (n % d)
  if d < rest || (rest == d && whole % 2 == 1) then whole + 1 else whole

/-- The number closest to `n / d`. A mantissa that was rounded up to one more bit is even. -/
def nearest (n d : Nat) : Double :=
  if n = 0 then ⟨0, -1074⟩
  else
    let e := scale n d
    let units := inUnits n d e
    let m := roundToEven units.1 units.2
    if m = Nat.pow 2 53 then ⟨Nat.pow 2 52, e + 1⟩ else ⟨m, e⟩

/-- The whole number `n`, rounded. -/
def ofNat (n : Nat) : Double :=
  nearest n 1

/-- The rounded sum. -/
def add (x y : Double) : Double :=
  nearest (x.numerator * y.denominator + y.numerator * x.denominator)
    (x.denominator * y.denominator)

/-- The rounded difference, zero when `y` is the greater. -/
def sub (x y : Double) : Double :=
  nearest (x.numerator * y.denominator - y.numerator * x.denominator)
    (x.denominator * y.denominator)

/-- The rounded product. -/
def mul (x y : Double) : Double :=
  nearest (x.numerator * y.numerator) (x.denominator * y.denominator)

/-- The rounded quotient. -/
def div (x y : Double) : Double :=
  nearest (x.numerator * y.denominator) (x.denominator * y.numerator)

instance : Add Double := ⟨add⟩
instance : Sub Double := ⟨sub⟩
instance : Mul Double := ⟨mul⟩
instance : Div Double := ⟨div⟩

/-- Whether `x` is less than `y`. -/
def less (x y : Double) : Bool :=
  x.numerator * y.denominator < y.numerator * x.denominator

/-- Whether the number is zero. -/
def isZero (x : Double) : Bool :=
  x.mantissa == 0

/-- Whether the number is not beyond the largest one. -/
def isFinite (x : Double) : Bool :=
  x.exponent ≤ 971

/-- The rounded power of ten. -/
def powerOfTen (n : Nat) : Double :=
  ofNat (Nat.pow 10 n)

/-- The number divided by the largest power of ten some times, as long as anything is left. -/
def divByLargest (x : Double) : Nat → Double
  | 0 => x
  | times + 1 =>
    if x.isZero then x else (x / powerOfTen 308).divByLargest times

/-- The number times `10 ^ e`, rounded after each step: the powers of ten that exist end at
`10 ^ 308`, so a longer way down takes several. -/
def shift? (x : Double) (e : Int) : Option Double :=
  if x.isZero then some x
  else if e < 0 then
    let times := (e.natAbs - 1) / 308
    some (x.divByLargest times / powerOfTen (e.natAbs - 308 * times))
  else if e ≤ 308 then some (x * powerOfTen e.toNat) |>.filter isFinite
  else none

end Double

end Polyglot
