import Polyglot.Double

/-!
# Similarity of words

The Jaro similarity of two words counts the characters that occur in both at about the same
place and how many of those are out of order; the Jaro-Winkler form raises a score above
0.7 by the length of the common front. Both lie between 0 and 1 and are worked out in double
precision, step by step, because names are put in order by them.
-/

set_option autoImplicit false

namespace Polyglot.Text

/-- How far apart two equal characters may stand and still count as common. -/
def reach (a b : List Char) : Nat :=
  max a.length b.length / 2 - 1

/-- The first place in `lo..hi` of `b` that holds `c` and is not taken yet. -/
def placeOf? (b : List Char) (taken : List Nat) (c : Char) (lo hi : Nat) : Option Nat :=
  (b.take hi).zipIdx.find? (fun p => lo ≤ p.2 && p.1 == c && !taken.contains p.2) |>.map (·.2)

/-- The common characters in the order of the first word, and their places in the second. -/
def commonFrom (b : List Char) (range : Nat) : Nat → List Nat → List Char →
    List Char × List Nat
  | _, taken, [] => ([], taken)
  | i, taken, c :: rest =>
    match placeOf? b taken c (i - range) (i + range + 1) with
    | some j =>
      let (common, places) := commonFrom b range (i + 1) (j :: taken) rest
      (c :: common, places)
    | none => commonFrom b range (i + 1) taken rest

/-- The Jaro similarity. -/
def jaro (a b : List Char) : Double :=
  if a.isEmpty && b.isEmpty then .ofNat 1
  else
    let (common, places) := commonFrom b (reach a b) 0 [] a
    let other := b.zipIdx.filter (fun p => places.contains p.2) |>.map (·.1)
    let swaps := (common.zip other).countP (fun p => p.1 != p.2) / 2
    let n := common.length
    if n == 0 then .ofNat 0
    else
      (.nearest n a.length + .nearest n b.length + .nearest (n - swaps) n) / .ofNat 3

/-- The length of the common front, four at most. -/
def commonFront (a b : List Char) : Nat :=
  ((a.take 4).zip b).takeWhile (fun p => p.1 == p.2) |>.length

/-- The Jaro-Winkler similarity. -/
def jaroWinkler (a b : String) : Double :=
  let score := jaro a.toList b.toList
  if Double.less (.nearest 7 10) score then
    score + .nearest 1 10 * .ofNat (commonFront a.toList b.toList) * (.ofNat 1 - score)
  else score

end Polyglot.Text
