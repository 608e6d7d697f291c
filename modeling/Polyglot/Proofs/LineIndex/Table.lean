import Mathlib.Data.Prod.Lex
import Polyglot.LineIndex

/-!
# The table of line starts

The starts of the lines of a buffer ascend and lie in the buffer, and behind the first one each
stands behind a newline. So the starts up to an offset are a front part of the table, which is the
table of the bytes before the offset (`takeWhile_startsAfter`). The row that an offset is looked up
in is the last of them: its start is there, it does not lie behind the offset, and the next row
starts behind the offset (`start_le_iff`).
-/

set_option autoImplicit false

namespace Polyglot

namespace Point

/-- The row and the column, to be compared in this order. -/
def key (p : Point) : ℕ ×ₗ ℕ :=
  toLex (p.row, p.column)

theorem key_injective : Function.Injective key := by
  rintro ⟨row, column⟩ ⟨row', column'⟩ h
  simpa [key] using h

/-- Points come in order of their rows, and in a row in order of their columns. -/
instance : LinearOrder Point :=
  LinearOrder.lift' key key_injective

theorem le_iff {p q : Point} : p ≤ q ↔ p.row < q.row ∨ (p.row = q.row ∧ p.column ≤ q.column) :=
  Prod.Lex.toLex_le_toLex

theorem notAfter_iff_le {p q : Point} : p.notAfter q = true ↔ p ≤ q := by
  rw [notAfter_iff, le_iff]

end Point

namespace LineIndex

variable {bs : Bytes} {base o i s : Nat}

/-! ## The starts behind newlines -/

theorem length_startsAfter (base : Nat) (bs : Bytes) :
    (startsAfter base bs).length = bs.count Bytes.newline := by
  induction bs generalizing base with
  | nil => rfl
  | cons b bs ih =>
    rw [startsAfter, List.count_cons]
    split
    · rw [List.length_cons, ih]
    · rw [ih, Nat.add_zero]

theorem mem_startsAfter :
    s ∈ startsAfter base bs ↔ ∃ i, bs[i]? = some Bytes.newline ∧ s = base + i + 1 := by
  induction bs generalizing base with
  | nil => simp [startsAfter]
  | cons b bs ih =>
    have hsplit : (∃ i, (b :: bs)[i]? = some Bytes.newline ∧ s = base + i + 1) ↔
        (b = Bytes.newline ∧ s = base + 1) ∨ s ∈ startsAfter (base + 1) bs := by
      rw [ih]
      constructor
      · rintro ⟨i, hi, rfl⟩
        cases i with
        | zero => exact .inl ⟨by simpa using hi, rfl⟩
        | succ i => exact .inr ⟨i, hi, by omega⟩
      · rintro (⟨rfl, rfl⟩ | ⟨i, hi, rfl⟩)
        · exact ⟨0, rfl, rfl⟩
        · exact ⟨i + 1, hi, by omega⟩
    rw [hsplit, startsAfter]
    split
    · next hb => simp [beq_iff_eq.1 hb]
    · next hb => simp [show b ≠ Bytes.newline by simpa using hb]

theorem lt_of_mem_startsAfter (h : s ∈ startsAfter base bs) : base < s ∧ s ≤ base + bs.length := by
  obtain ⟨i, hi, rfl⟩ := mem_startsAfter.1 h
  have := (List.getElem?_eq_some_iff.1 hi).1
  omega

theorem pairwise_startsAfter (base : Nat) (bs : Bytes) :
    (startsAfter base bs).Pairwise (· < ·) := by
  induction bs generalizing base with
  | nil => exact .nil
  | cons b bs ih =>
    rw [startsAfter]
    split
    · exact List.pairwise_cons.2 ⟨fun s hs => (lt_of_mem_startsAfter hs).1, ih _⟩
    · exact ih _

/-- The starts up to an offset are those of the bytes before it. -/
theorem takeWhile_startsAfter (base o : Nat) (bs : Bytes) :
    (startsAfter base bs).takeWhile (· ≤ base + o) = startsAfter base (bs.take o) := by
  induction bs generalizing base o with
  | nil => simp [startsAfter]
  | cons b bs ih =>
    cases o with
    | zero =>
      have hbehind : ∀ s ∈ startsAfter base (b :: bs), base < s :=
        fun s hs => (lt_of_mem_startsAfter hs).1
      cases hstarts : startsAfter base (b :: bs) with
      | nil => rfl
      | cons s rest =>
        rw [hstarts] at hbehind
        have := hbehind s List.mem_cons_self
        rw [List.takeWhile_cons_of_neg (by simpa using this)]
        rfl
    | succ o =>
      have ih := ih (base + 1) o
      rw [Nat.add_assoc, Nat.add_comm 1] at ih
      rw [List.take_succ_cons, startsAfter, startsAfter]
      split
      · rw [List.takeWhile_cons_of_pos (by simp), ih]
      · exact ih

/-! ## The table of a buffer -/

theorem pairwise_starts (bs : Bytes) : (ofBytes bs).starts.Pairwise (· < ·) :=
  List.pairwise_cons.2 ⟨fun _ hs => (lt_of_mem_startsAfter hs).1, pairwise_startsAfter 0 bs⟩

@[simp] theorem length_ofBytes (bs : Bytes) : (ofBytes bs).length = bs.length := rfl

theorem mem_starts :
    s ∈ (ofBytes bs).starts ↔ s = 0 ∨ ∃ i, bs[i]? = some Bytes.newline ∧ s = i + 1 := by
  simp [ofBytes, mem_startsAfter]

theorem le_length_of_mem (h : s ∈ (ofBytes bs).starts) : s ≤ bs.length := by
  rcases mem_starts.1 h with rfl | ⟨i, hi, rfl⟩
  · exact Nat.zero_le _
  · exact (List.getElem?_eq_some_iff.1 hi).1

theorem lineCount_ofBytes (bs : Bytes) :
    (ofBytes bs).lineCount = bs.count Bytes.newline + 1 := by
  rw [lineCount, ofBytes, List.length_cons, length_startsAfter]

/-- Of two rows the one further down starts further on. -/
theorem start_lt_start {j s' : Nat} (hi : (ofBytes bs).starts[i]? = some s)
    (hj : (ofBytes bs).starts[j]? = some s') (hij : i < j) : s < s' := by
  obtain ⟨hilt, rfl⟩ := List.getElem?_eq_some_iff.1 hi
  obtain ⟨hjlt, rfl⟩ := List.getElem?_eq_some_iff.1 hj
  exact List.pairwise_iff_getElem.1 (pairwise_starts bs) i j hilt hjlt hij

/-- The starts up to an offset. -/
def reached (ix : LineIndex) (o : Nat) : List Nat :=
  ix.starts.takeWhile (· ≤ o)

theorem reached_isPrefix (ix : LineIndex) (o : Nat) : ix.reached o <+: ix.starts :=
  List.takeWhile_prefix _

theorem reached_ofBytes (bs : Bytes) (o : Nat) :
    (ofBytes bs).reached o = 0 :: startsAfter 0 (bs.take o) := by
  have h := takeWhile_startsAfter 0 o bs
  rw [Nat.zero_add] at h
  rw [reached, ofBytes, List.takeWhile_cons_of_pos (by simp), h]

theorem length_reached (bs : Bytes) (o : Nat) :
    ((ofBytes bs).reached o).length = (bs.take o).count Bytes.newline + 1 := by
  rw [reached_ofBytes, List.length_cons, length_startsAfter]

/-- In an ascending table the entries up to an offset are those in front. -/
theorem le_iff_lt_length_takeWhile {l : List Nat} (hl : l.Pairwise (· < ·)) (h : l[i]? = some s) :
    s ≤ o ↔ i < (l.takeWhile (· ≤ o)).length := by
  induction l generalizing i with
  | nil => cases h
  | cons a l ih =>
    obtain ⟨hbehind, hl⟩ := List.pairwise_cons.1 hl
    by_cases ha : a ≤ o
    · rw [List.takeWhile_cons_of_pos (by simpa using ha), List.length_cons]
      cases i with
      | zero =>
        obtain rfl : a = s := by simpa using h
        exact iff_of_true ha (Nat.zero_lt_succ _)
      | succ i => rw [ih hl h, Nat.succ_lt_succ_iff]
    · have hs : a ≤ s := by
        rcases List.mem_cons.1 (List.mem_of_getElem? h) with rfl | hs
        · exact Nat.le_refl _
        · exact Nat.le_of_lt (hbehind s hs)
      rw [List.takeWhile_cons_of_neg (by simpa using ha)]
      exact iff_of_false (by omega) (Nat.not_lt_zero _)

/-- The table is parted behind the starts that an offset reaches. -/
theorem start_le_iff (h : (ofBytes bs).starts[i]? = some s) :
    s ≤ o ↔ i < ((ofBytes bs).reached o).length :=
  le_iff_lt_length_takeWhile (pairwise_starts bs) h

/-! ## The row of an offset -/

theorem pointOf_of_le (ho : o ≤ bs.length) :
    (ofBytes bs).pointOf o =
      ⟨(bs.take o).count Bytes.newline, o - ((ofBytes bs).reached o).getLast?.getD 0⟩ := by
  have hlength := length_reached bs o
  unfold reached at hlength
  rw [pointOf, length_ofBytes, Nat.min_eq_left ho]
  simp only [hlength, Nat.add_sub_cancel]
  rfl

theorem pointOf_of_ge (ho : bs.length ≤ o) : (ofBytes bs).pointOf o = (ofBytes bs).pointOf bs.length := by
  rw [pointOf, pointOf, length_ofBytes, Nat.min_eq_right ho, Nat.min_self]

/-- The row of an offset has a start. It does not lie behind the offset, the column counts from it,
and the rows further down start behind the offset. -/
theorem exists_start (ho : o ≤ bs.length) :
    ∃ s, (ofBytes bs).starts[((ofBytes bs).pointOf o).row]? = some s ∧ s ≤ o ∧
      ((ofBytes bs).pointOf o).column = o - s ∧
      ∀ {i s'}, (ofBytes bs).starts[i]? = some s' →
        (s' ≤ o ↔ i ≤ ((ofBytes bs).pointOf o).row) := by
  have hlength := length_reached bs o
  have hrow : ((ofBytes bs).reached o).length - 1 = (bs.take o).count Bytes.newline := by omega
  obtain ⟨s, hs⟩ : ∃ s, ((ofBytes bs).reached o).getLast? = some s := by
    rw [reached_ofBytes]
    exact ⟨_, List.getLast?_cons⟩
  have hget : ((ofBytes bs).reached o)[(bs.take o).count Bytes.newline]? = some s := by
    rw [← hrow, ← List.getLast?_eq_getElem?, hs]
  have hstart : (ofBytes bs).starts[(bs.take o).count Bytes.newline]? = some s := by
    obtain ⟨hlt, hs⟩ := List.getElem?_eq_some_iff.1 hget
    rw [List.prefix_iff_getElem?.1 ((ofBytes bs).reached_isPrefix o) _ hlt, hs]
  rw [pointOf_of_le ho, hs]
  refine ⟨s, hstart, ?_, rfl, ?_⟩
  · rw [start_le_iff hstart, hlength]
    exact Nat.lt_succ_self _
  · intro i s' hs'
    rw [start_le_iff hs', hlength, Nat.lt_succ_iff]

end LineIndex

end Polyglot
