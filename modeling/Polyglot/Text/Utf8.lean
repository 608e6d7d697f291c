import Polyglot.Bytes

/-!
# Reading bytes as UTF-8

`next` reads one unit off the front of a buffer: a scalar value, or a malformed unit, which
is the longest run of bytes that could still have begun a well-formed sequence (one byte if
there is no such run). `decode?` accepts well-formed buffers only; `decodeLossy` writes one
replacement character for each malformed unit, so it reads every buffer.
-/

set_option autoImplicit false

namespace Polyglot.Utf8

/-- A continuation byte, `80..BF`. -/
def isContinuation (b : UInt8) : Bool :=
  0x80 ≤ b && b ≤ 0xBF

/-- Whether `b` may follow the lead byte of a three-byte sequence. -/
def isSecondOfThree (lead b : UInt8) : Bool :=
  if lead == 0xE0 then 0xA0 ≤ b && b ≤ 0xBF
  else if lead == 0xED then 0x80 ≤ b && b ≤ 0x9F
  else isContinuation b

/-- Whether `b` may follow the lead byte of a four-byte sequence. -/
def isSecondOfFour (lead b : UInt8) : Bool :=
  if lead == 0xF0 then 0x90 ≤ b && b ≤ 0xBF
  else if lead == 0xF4 then 0x80 ≤ b && b ≤ 0x8F
  else isContinuation b

/-- The six payload bits of a continuation byte. -/
def payload (b : UInt8) : Nat :=
  b.toNat % 64

/-- One unit from the front of `b :: rest`, and what follows it. -/
def next (b : UInt8) (rest : Bytes) : Option Char × Bytes :=
  if b < 0x80 then (some (Char.ofNat b.toNat), rest)
  else if 0xC2 ≤ b && b ≤ 0xDF then
    match rest with
    | c :: rest₁ =>
      if isContinuation c then
        (some (Char.ofNat (b.toNat % 32 * 64 + payload c)), rest₁)
      else (none, rest)
    | [] => (none, rest)
  else if 0xE0 ≤ b && b ≤ 0xEF then
    match rest with
    | c :: rest₁ =>
      if isSecondOfThree b c then
        match rest₁ with
        | d :: rest₂ =>
          if isContinuation d then
            (some (Char.ofNat ((b.toNat % 16 * 64 + payload c) * 64 + payload d)), rest₂)
          else (none, rest₁)
        | [] => (none, rest₁)
      else (none, rest)
    | [] => (none, rest)
  else if 0xF0 ≤ b && b ≤ 0xF4 then
    match rest with
    | c :: rest₁ =>
      if isSecondOfFour b c then
        match rest₁ with
        | d :: rest₂ =>
          if isContinuation d then
            match rest₂ with
            | e :: rest₃ =>
              if isContinuation e then
                (some (Char.ofNat
                  (((b.toNat % 8 * 64 + payload c) * 64 + payload d) * 64 + payload e)), rest₃)
              else (none, rest₂)
            | [] => (none, rest₂)
          else (none, rest₁)
        | [] => (none, rest₁)
      else (none, rest)
    | [] => (none, rest)
  else (none, rest)

/-- The first `n` units of a buffer. -/
def units : Nat → Bytes → List (Option Char)
  | 0, _ => []
  | _, [] => []
  | n + 1, b :: rest => (next b rest).1 :: units n (next b rest).2

/-- The text of a well-formed buffer. -/
def decode? (bs : Bytes) : Option String :=
  ((units bs.length bs).mapM id).map String.ofList

/-- The text of any buffer, with `U+FFFD` for each malformed unit. -/
def decodeLossy (bs : Bytes) : String :=
  String.ofList ((units bs.length bs).map fun unit => unit.getD '\uFFFD')

end Polyglot.Utf8
