import Mathlib.Order.GaloisConnection.Basic
import Polyglot.Proofs.LineIndex.Table

/-!
# Points and offsets

The offset of a point is the last offset whose point does not come after it: the two lookups of a
line index are adjoint (`pointOf_le_iff`). This holds of points that name a byte and of those that
do not, beyond the end of their line or below the last row. So both lookups are monotone, and an
offset is the offset of its point.

The lookups are written with differences and sums of natural numbers. `pointOf?` and `offsetOf?`
are the same in words, with a check wherever a word would wrap and a lookup leave the table; none
of the checks ever fails.
-/

set_option autoImplicit false

namespace Polyglot.LineIndex

variable {ix : LineIndex} {bs : Bytes} {p q : Point} {o i s k : Nat}

/-! ## The ends of the lines -/

/-- Where the line of a row stops: at its newline, or at the end of the buffer. -/
def lineStop (ix : LineIndex) (row : Nat) : Nat :=
  (ix.starts[row + 1]?.map (· - 1)).getD ix.length

theorem offsetOf_of_none (h : ix.starts[p.row]? = none) : ix.offsetOf p = ix.length := by
  simp only [offsetOf, h]

theorem offsetOf_of_start (h : ix.starts[p.row]? = some s) :
    ix.offsetOf p = min (s + p.column) (ix.lineStop p.row) := by
  simp only [offsetOf, h, lineStop]

theorem lineStop_of_none (h : ix.starts[i + 1]? = none) : ix.lineStop i = ix.length := by
  rw [lineStop, h]
  rfl

theorem lineStop_of_start (h : ix.starts[i + 1]? = some s) : ix.lineStop i = s - 1 := by
  rw [lineStop, h]
  rfl

/-- A line stops in the buffer, not before it starts, and before the next row starts. -/
theorem lineStop_between (h : (ofBytes bs).starts[i]? = some s) :
    s ≤ (ofBytes bs).lineStop i ∧ (ofBytes bs).lineStop i ≤ bs.length ∧
      ∀ {j s'}, (ofBytes bs).starts[j]? = some s' → i < j → (ofBytes bs).lineStop i < s' := by
  cases hnext : (ofBytes bs).starts[i + 1]? with
  | none =>
    rw [lineStop_of_none hnext]
    refine ⟨le_length_of_mem (List.mem_of_getElem? h), Nat.le_refl _, ?_⟩
    intro j s' hj hij
    have hlast := List.getElem?_eq_none_iff.1 hnext
    have hlt := (List.getElem?_eq_some_iff.1 hj).1
    omega
  | some next =>
    have hlt := start_lt_start h hnext (Nat.lt_succ_self i)
    have hle := le_length_of_mem (List.mem_of_getElem? hnext)
    rw [lineStop_of_start hnext]
    refine ⟨by omega, by omega, ?_⟩
    intro j s' hj hij
    rcases Nat.eq_or_lt_of_le (Nat.succ_le_of_lt hij) with rfl | hij
    · obtain rfl : next = s' := Option.some.inj (hnext.symm.trans hj)
      omega
    · have := start_lt_start hnext hj hij
      omega

theorem offsetOf_le (bs : Bytes) (p : Point) : (ofBytes bs).offsetOf p ≤ bs.length := by
  cases h : (ofBytes bs).starts[p.row]? with
  | none => exact Nat.le_of_eq (offsetOf_of_none h)
  | some s =>
    rw [offsetOf_of_start h]
    exact Nat.le_trans (Nat.min_le_right _ _) (lineStop_between h).2.1

/-- An offset lies in the line of its row. -/
theorem le_lineStop (ho : o ≤ bs.length) :
    o ≤ (ofBytes bs).lineStop ((ofBytes bs).pointOf o).row := by
  obtain ⟨-, -, -, -, hrows⟩ := exists_start ho
  cases hnext : (ofBytes bs).starts[((ofBytes bs).pointOf o).row + 1]? with
  | none => rwa [lineStop_of_none hnext]
  | some next =>
    have := hrows hnext
    rw [lineStop_of_start hnext]
    omega

/-! ## The adjunction -/

/-- The point of an offset does not come after another point just when the offset does not lie
behind that of the other. -/
theorem pointOf_le_iff (ho : o ≤ bs.length) (p : Point) :
    (ofBytes bs).pointOf o ≤ p ↔ o ≤ (ofBytes bs).offsetOf p := by
  obtain ⟨s, hs, hso, hcolumn, hrows⟩ := exists_start ho
  rw [Point.le_iff, hcolumn]
  cases hp : (ofBytes bs).starts[p.row]? with
  | none =>
    have hlast := List.getElem?_eq_none_iff.1 hp
    have hlt := (List.getElem?_eq_some_iff.1 hs).1
    rw [offsetOf_of_none hp]
    exact iff_of_true (.inl (by omega)) ho
  | some s' =>
    have hbetween := lineStop_between hp
    rw [offsetOf_of_start hp]
    rcases Nat.lt_trichotomy ((ofBytes bs).pointOf o).row p.row with hlt | heq | hgt
    · -- The row of the point starts behind the offset.
      have hbehind := hrows hp
      exact iff_of_true (.inl hlt) (by omega)
    · have hstop := le_lineStop ho
      rw [heq] at hs hstop
      obtain rfl : s = s' := Option.some.inj (hs.symm.trans hp)
      omega
    · -- The line of the point stops before the row of the offset starts.
      have hbefore := hbetween.2.2 hs hgt
      exact iff_of_false (by omega) (by omega)

/-- The lookups on the offsets of a buffer, as a Galois connection. -/
theorem galoisConnection (bs : Bytes) :
    GaloisConnection (fun o : Set.Iic bs.length => (ofBytes bs).pointOf o)
      (fun p => (⟨(ofBytes bs).offsetOf p, offsetOf_le bs p⟩ : Set.Iic bs.length)) :=
  fun o p => pointOf_le_iff o.2 p

theorem monotone_offsetOf (bs : Bytes) : Monotone (ofBytes bs).offsetOf :=
  fun _ _ hpq => (galoisConnection bs).monotone_u hpq

theorem pointOf_min (bs : Bytes) (o : Nat) :
    (ofBytes bs).pointOf (min o bs.length) = (ofBytes bs).pointOf o := by
  rcases Nat.le_total o bs.length with ho | ho
  · rw [Nat.min_eq_left ho]
  · rw [Nat.min_eq_right ho, pointOf_of_ge ho]

theorem monotone_pointOf (bs : Bytes) : Monotone (ofBytes bs).pointOf := by
  intro o o' h
  rw [← pointOf_min bs o, ← pointOf_min bs o']
  have hmin : min o bs.length ≤ min o' bs.length := by omega
  exact (galoisConnection bs).monotone_l (a := ⟨_, Nat.min_le_right _ _⟩)
    (b := ⟨_, Nat.min_le_right _ _⟩) hmin

theorem offsetOf_pointOf (ho : o ≤ bs.length) :
    (ofBytes bs).offsetOf ((ofBytes bs).pointOf o) = o := by
  obtain ⟨s, hs, hso, hcolumn, -⟩ := exists_start ho
  have hstop := le_lineStop ho
  rw [offsetOf_of_start hs, hcolumn]
  omega

/-! ## Rows and columns -/

/-- The column of an offset counts from behind the last newline before it. -/
theorem exists_lineStart (ho : o ≤ bs.length) :
    ∃ s ≤ o, ((ofBytes bs).pointOf o).column = o - s ∧
      (s = 0 ∨ ∃ i, bs[i]? = some Bytes.newline ∧ s = i + 1) ∧
      ∀ i, s ≤ i → i < o → bs[i]? ≠ some Bytes.newline := by
  obtain ⟨s, hs, hso, hcolumn, hrows⟩ := exists_start ho
  refine ⟨s, hso, hcolumn, mem_starts.1 (List.mem_of_getElem? hs), ?_⟩
  intro i hsi hio hi
  -- A newline in between would start a row that the offset reaches, and further down.
  obtain ⟨j, hj⟩ := List.mem_iff_getElem?.1 (mem_starts.2 (.inr ⟨i, hi, rfl⟩))
  have hrow := (hrows hj).1 (by omega)
  rcases Nat.eq_or_lt_of_le hrow with rfl | hlt
  · have := Option.some.inj (hs.symm.trans hj)
    omega
  · have := start_lt_start hj hs hlt
    omega

/-! ## The lookups in words -/

/-- The starts up to an offset are the first `k` of the table. This is what a search by halves
for the place where the starts pass the offset finds in a table that has such a place. -/
def PartedAt (ix : LineIndex) (o k : Nat) : Prop :=
  k ≤ ix.starts.length ∧ ∀ i s, ix.starts[i]? = some s → (s ≤ o ↔ i < k)

/-- The difference, unless it wraps. -/
def minus? (a b : Nat) : Option Nat :=
  if b ≤ a then some (a - b) else none

/-- The sum, unless it passes the largest word. -/
def plus? (largest a b : Nat) : Option Nat :=
  if a + b ≤ largest then some (a + b) else none

/-- The point of an offset where the table is parted at `k`. -/
def pointOf? (ix : LineIndex) (k offset : Nat) : Option Point := do
  let offset := min offset ix.length
  let row ← minus? k 1
  let lineStart ← ix.starts[row]?
  let column ← minus? offset lineStart
  some ⟨row, column⟩

/-- Where the line before a row stops. -/
def stopBefore? (ix : LineIndex) (row : Nat) : Option Nat :=
  match ix.starts[row]? with
  | none => some ix.length
  | some start => minus? start 1

/-- The offset of a point. The sum of start and column stops at the largest word. -/
def offsetOf? (ix : LineIndex) (largest : Nat) (p : Point) : Option Nat :=
  match ix.starts[p.row]? with
  | none => some ix.length
  | some lineStart => do
    let next ← plus? largest p.row 1
    let lineStop ← ix.stopBefore? next
    some (min (min (lineStart + p.column) largest) lineStop)

theorem minus?_of_le {a b : Nat} (h : b ≤ a) : minus? a b = some (a - b) :=
  if_pos h

theorem plus?_of_le {largest a b : Nat} (h : a + b ≤ largest) : plus? largest a b = some (a + b) :=
  if_pos h

theorem partedAt_iff : (ofBytes bs).PartedAt o k ↔ k = ((ofBytes bs).reached o).length := by
  have hle := ((ofBytes bs).reached_isPrefix o).length_le
  constructor
  · rintro ⟨hk, hparted⟩
    have hiff : ∀ i < (ofBytes bs).starts.length,
        (i < k ↔ i < ((ofBytes bs).reached o).length) := by
      intro i hi
      have hget := List.getElem?_eq_getElem hi
      rw [← hparted i _ hget, start_le_iff hget]
    rcases Nat.lt_trichotomy k ((ofBytes bs).reached o).length with hlt | heq | hgt
    · have := hiff k (by omega)
      omega
    · exact heq
    · have := hiff _ (Nat.lt_of_lt_of_le hgt hk)
      omega
  · rintro rfl
    exact ⟨hle, fun i s hs => start_le_iff hs⟩

/-- Nothing that the lookup of a point computes wraps or leaves the table. -/
theorem pointOf?_eq (h : (ofBytes bs).PartedAt (min o bs.length) k) :
    (ofBytes bs).pointOf? k o = some ((ofBytes bs).pointOf o) := by
  have ho : min o bs.length ≤ bs.length := Nat.min_le_right _ _
  obtain ⟨s, hs, hso, hcolumn, -⟩ := exists_start ho
  have hrow : ((ofBytes bs).pointOf (min o bs.length)).row + 1 = k := by
    rw [partedAt_iff.1 h, length_reached, pointOf_of_le ho]
  rw [← pointOf_min bs o]
  have hminus : minus? k 1 = some ((ofBytes bs).pointOf (min o bs.length)).row := by
    rw [minus?_of_le (by omega), ← hrow, Nat.add_sub_cancel]
  simp only [pointOf?, length_ofBytes, hminus, hs, minus?_of_le hso, ← hcolumn,
    Option.bind_eq_bind, Option.bind_some]

theorem stopBefore?_eq (h : (ofBytes bs).starts[i]? = some s) :
    (ofBytes bs).stopBefore? (i + 1) = some ((ofBytes bs).lineStop i) := by
  unfold stopBefore?
  cases hnext : (ofBytes bs).starts[i + 1]? with
  | none => rw [lineStop_of_none hnext]
  | some next =>
    have := start_lt_start h hnext (Nat.lt_succ_self i)
    rw [lineStop_of_start hnext]
    exact minus?_of_le (by omega)

/-- Nothing that the lookup of an offset computes wraps or leaves the table, and that the sum of
start and column may stop short of its value changes nothing. -/
theorem offsetOf?_eq {largest : Nat} (h : bs.length < largest) (p : Point) :
    (ofBytes bs).offsetOf? largest p = some ((ofBytes bs).offsetOf p) := by
  cases hp : (ofBytes bs).starts[p.row]? with
  | none => simp only [offsetOf?, hp, offsetOf_of_none hp]
  | some s =>
    have hrows : (ofBytes bs).starts.length = bs.count Bytes.newline + 1 := lineCount_ofBytes bs
    have hcount : bs.count Bytes.newline ≤ bs.length := List.count_le_length
    have hlt := (List.getElem?_eq_some_iff.1 hp).1
    have hstop := (lineStop_between hp).2.1
    have hnext : plus? largest p.row 1 = some (p.row + 1) := plus?_of_le (by omega)
    simp only [offsetOf?, hp, hnext, Option.bind_eq_bind, Option.bind_some, stopBefore?_eq hp,
      offsetOf_of_start hp, Option.some.injEq]
    omega

/-! ## The lookups together -/

/-- What the lookups of the line index of a buffer are: each other's adjoint, and computed without
a word that wraps. -/
structure Adjoint (bs : Bytes) : Prop where
  /-- The point of an offset in the buffer does not come after another just when the offset does not
  lie behind that of the other. -/
  adjoint : ∀ o ≤ bs.length, ∀ p, (ofBytes bs).pointOf o ≤ p ↔ o ≤ (ofBytes bs).offsetOf p
  /-- Every point has an offset in the buffer. -/
  bounded : ∀ p, (ofBytes bs).offsetOf p ≤ bs.length
  /-- The row counts the newlines before the offset. -/
  row : ∀ o ≤ bs.length, ((ofBytes bs).pointOf o).row = (bs.take o).count Bytes.newline
  /-- The column is the distance from behind the last newline before the offset, or from the front if
  there is none. -/
  column : ∀ o ≤ bs.length, ∃ s ≤ o, ((ofBytes bs).pointOf o).column = o - s ∧
    (s = 0 ∨ ∃ i, bs[i]? = some Bytes.newline ∧ s = i + 1) ∧
    ∀ i, s ≤ i → i < o → bs[i]? ≠ some Bytes.newline
  /-- An offset behind the buffer counts as its end. -/
  clamped : ∀ o, bs.length ≤ o → (ofBytes bs).pointOf o = (ofBytes bs).pointOf bs.length
  /-- An offset is the offset of its point. -/
  roundTrip : ∀ o ≤ bs.length, (ofBytes bs).offsetOf ((ofBytes bs).pointOf o) = o
  pointOf_mono : Monotone (ofBytes bs).pointOf
  offsetOf_mono : Monotone (ofBytes bs).offsetOf
  /-- The starts lie in the buffer, so that none of them wraps when the table is made. -/
  starts : ∀ s ∈ (ofBytes bs).starts, s ≤ bs.length
  /-- The table has a place where the starts pass an offset. -/
  parted : ∀ o, ∃ k, (ofBytes bs).PartedAt o k
  /-- Wherever that place is found, the lookup of a point goes through. -/
  pointOf?_eq : ∀ o k, (ofBytes bs).PartedAt (min o bs.length) k →
    (ofBytes bs).pointOf? k o = some ((ofBytes bs).pointOf o)
  /-- The lookup of an offset goes through in all words that can count the rows. -/
  offsetOf?_eq : ∀ largest, bs.length < largest → ∀ p,
    (ofBytes bs).offsetOf? largest p = some ((ofBytes bs).offsetOf p)

/-- The lookups of the line index of a buffer are adjoint. -/
theorem adjoint_ofBytes (bs : Bytes) : Adjoint bs where
  adjoint _ ho p := pointOf_le_iff ho p
  bounded := offsetOf_le bs
  row _ ho := by rw [pointOf_of_le ho]
  column _ ho := exists_lineStart ho
  clamped _ ho := pointOf_of_ge ho
  roundTrip _ ho := offsetOf_pointOf ho
  pointOf_mono := monotone_pointOf bs
  offsetOf_mono := monotone_offsetOf bs
  starts _ hs := le_length_of_mem hs
  parted _ := ⟨_, partedAt_iff.2 rfl⟩
  pointOf?_eq _ _ hk := LineIndex.pointOf?_eq hk
  offsetOf?_eq _ hlargest p := LineIndex.offsetOf?_eq hlargest p

/-- Columns past the end of a line and rows past the last one count as the offsets there. -/
example : (ofBytes (Bytes.ofString "ab\ncd")).offsetOf ⟨0, 10⟩ = 2 ∧
    (ofBytes (Bytes.ofString "ab\ncd")).offsetOf ⟨7, 0⟩ = 5 ∧
    (ofBytes (Bytes.ofString "ab\ncd")).pointOf 2 = ⟨0, 2⟩ := by decide +kernel

end Polyglot.LineIndex
