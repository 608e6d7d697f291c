import Mathlib.Data.List.Sort
import Polyglot.Command.Discovery

/-!
# The order of paths

Paths are put in order by their steps, and two paths are the same when their steps are. The order of
steps is that of a rank and a text (`Component.compare_eq`), the order of paths the lexicographic
one, so the laws of both come of those of numbers and texts.

A list of paths that is sorted, each path once, ascends strictly; it holds what it is made of, up to
spelling (`pairwise_sorted`, `mem_of_mem_sorted`, `exists_same_sorted`). So its steps depend on
nothing but the steps it is made of (`steps_sorted`).
-/

set_option autoImplicit false

namespace Polyglot

/-- Lists that ascend strictly are equal if they have the same members. -/
theorem eq_of_pairwise_lt {α : Type} {cmp : α → α → Ordering} [Std.TransCmp cmp] {l l' : List α}
    (h : l.Pairwise fun a b => cmp a b = .lt) (h' : l'.Pairwise fun a b => cmp a b = .lt)
    (hmem : ∀ a, a ∈ l ↔ a ∈ l') : l = l' := by
  have hirrefl : Std.Irrefl fun a b => cmp a b = .lt := by
    refine ⟨fun a hlt => ?_⟩
    have heq : cmp a a = .eq := Std.ReflCmp.compare_self
    rw [heq] at hlt
    cases hlt
  have hantisymm : Std.Antisymm fun a b => cmp a b = .lt := by
    refine ⟨fun a b hlt hgt => ?_⟩
    have hswap : cmp a b = (cmp b a).swap := Std.OrientedCmp.eq_swap
    rw [hswap, hgt] at hlt
    cases hlt
  exact h.eq_of_mem_iff h' hmem

namespace Path

/-! ## Steps -/

namespace Component

/-- Root, `.` and `..` come before names. -/
def rank : Component → Nat
  | .root => 0
  | .here => 1
  | .up => 2
  | .name _ => 3

/-- The text of a name. -/
def text : Component → String
  | .name text => text
  | _ => ""

theorem compare_eq (a b : Component) :
    a.compare b = compareLex (compareOn rank) (compareOn text) a b := by
  cases a <;> cases b <;> rfl

instance : Std.TransCmp Component.compare := by
  have h : Component.compare = compareLex (compareOn rank) (compareOn text) := by
    funext a b
    exact compare_eq a b
  rw [h]
  infer_instance

instance : Std.LawfulEqCmp Component.compare where
  eq_of_compare {a b} h := by
    cases a <;> cases b <;> simp_all [Component.compare]

end Component

theorem compareComponents_eq (as bs : List Component) :
    compareComponents as bs = List.compareLex Component.compare as bs := by
  induction as generalizing bs with
  | nil => cases bs <;> rfl
  | cons a as ih =>
    cases bs with
    | nil => rfl
    | cons b bs => rw [compareComponents, List.compareLex_cons_cons, ih]

instance : Std.TransCmp compareComponents := by
  have h : compareComponents = List.compareLex Component.compare := by
    funext as bs
    exact compareComponents_eq as bs
  rw [h]
  infer_instance

instance : Std.LawfulEqCmp compareComponents := by
  have h : compareComponents = List.compareLex Component.compare := by
    funext as bs
    exact compareComponents_eq as bs
  rw [h]
  infer_instance

/-! ## Paths -/

variable {p q r : Path} {paths : List Path}

instance : Std.TransCmp Path.compare where
  eq_swap {p q} :=
    have h : compareComponents p.components q.components =
        (compareComponents q.components p.components).swap := Std.OrientedCmp.eq_swap
    h
  isLE_trans {p q r} (h : (compareComponents p.components q.components).isLE = true)
      (h' : (compareComponents q.components r.components).isLE = true) :=
    have hle : (compareComponents p.components r.components).isLE = true :=
      Std.TransCmp.isLE_trans h h'
    hle

theorem same_iff : p.same q = true ↔ p.components = q.components :=
  beq_iff_eq

/-- Paths that are not apart in the order have the same steps. -/
theorem components_eq_of_compare (h : p.compare q = .eq) : p.components = q.components :=
  Std.LawfulEqCmp.eq_of_compare h

/-! ## Each path once -/

theorem sublist_dropRepeats (paths : List Path) : (dropRepeats paths).Sublist paths := by
  fun_induction dropRepeats paths with
  | case1 => exact .slnil
  | case2 p => exact .refl _
  | case3 p q rest hsame ih => exact ih.trans ((List.sublist_cons_self q rest).cons_cons p)
  | case4 p q rest hsame ih => exact ih.cons_cons p

/-- Of what is left out there is the same path. -/
theorem exists_same_dropRepeats (paths : List Path) :
    ∀ q ∈ paths, ∃ r ∈ dropRepeats paths, r.same q = true := by
  fun_induction dropRepeats paths with
  | case1 => exact nofun
  | case2 p => exact List.forall_mem_singleton.2 ⟨p, List.mem_cons_self, same_iff.2 rfl⟩
  | case3 p q rest hsame ih =>
    obtain ⟨hp, hrest⟩ := List.forall_mem_cons.1 ih
    refine List.forall_mem_cons.2 ⟨hp, List.forall_mem_cons.2 ⟨?_, hrest⟩⟩
    obtain ⟨r, hr, hrp⟩ := hp
    exact ⟨r, hr, same_iff.2 ((same_iff.1 hrp).trans (same_iff.1 hsame))⟩
  | case4 p q rest hsame ih =>
    refine List.forall_mem_cons.2 ⟨⟨p, List.mem_cons_self, same_iff.2 rfl⟩, fun x hx => ?_⟩
    obtain ⟨r, hr, hrx⟩ := ih x hx
    exact ⟨r, List.mem_cons_of_mem _ hr, hrx⟩

/-- What ascends, ascends strictly without repeats. -/
theorem pairwise_dropRepeats (h : paths.Pairwise fun p q => (p.compare q).isLE = true) :
    (dropRepeats paths).Pairwise fun p q => p.compare q = .lt := by
  fun_induction dropRepeats paths with
  | case1 => exact .nil
  | case2 p => exact List.pairwise_singleton _ _
  | case3 p q rest hsame ih =>
    exact ih (h.sublist ((List.sublist_cons_self q rest).cons_cons p))
  | case4 p q rest hsame ih =>
    obtain ⟨hp, hrest⟩ := List.pairwise_cons.1 h
    refine List.pairwise_cons.2 ⟨fun r hr => ?_, ih hrest⟩
    have hlt : p.compare q = .lt := by
      rcases Ordering.isLE_iff_eq_lt_or_eq_eq.1 (hp q List.mem_cons_self) with hlt | heq
      · exact hlt
      · exact absurd (same_iff.2 (components_eq_of_compare heq)) hsame
    rcases List.mem_cons.1 ((sublist_dropRepeats _).mem hr) with rfl | hr
    · exact hlt
    · have hle : (q.compare r).isLE = true := (List.pairwise_cons.1 hrest).1 r hr
      exact Std.TransCmp.lt_of_lt_of_isLE hlt hle

/-! ## Sorted -/

theorem pairwise_sorted (paths : List Path) :
    (sorted paths).Pairwise fun p q => p.compare q = .lt := by
  have hle (p q : Path) : (p.compare q != .gt) = (p.compare q).isLE := by
    cases p.compare q <;> rfl
  apply pairwise_dropRepeats
  simp only [hle]
  apply List.pairwise_mergeSort
  · intro p q r
    exact Std.TransCmp.isLE_trans
  · intro p q
    have hswap : q.compare p = (p.compare q).swap := Std.OrientedCmp.eq_swap
    rw [hswap, Ordering.isLE_swap]
    cases p.compare q <;> rfl

/-- Nothing comes in by sorting. -/
theorem mem_of_mem_sorted (h : q ∈ sorted paths) : q ∈ paths :=
  List.mem_mergeSort.1 ((sublist_dropRepeats _).mem h)

/-- Nothing gets lost but other spellings. -/
theorem exists_same_sorted (h : q ∈ paths) : ∃ r ∈ sorted paths, r.same q = true :=
  exists_same_dropRepeats _ q (List.mem_mergeSort.2 h)

/-- The steps that come in are the steps that come out. -/
theorem mem_steps_sorted {steps : List Component} :
    steps ∈ (sorted paths).map components ↔ steps ∈ paths.map components := by
  constructor
  · intro h
    obtain ⟨q, hq, rfl⟩ := List.mem_map.1 h
    exact List.mem_map_of_mem (mem_of_mem_sorted hq)
  · intro h
    obtain ⟨q, hq, rfl⟩ := List.mem_map.1 h
    obtain ⟨r, hr, hsame⟩ := exists_same_sorted hq
    exact List.mem_map.2 ⟨r, hr, same_iff.1 hsame⟩

/-- Lists of the same paths are the same list when they are sorted. -/
theorem steps_sorted {paths' : List Path}
    (h : ∀ steps, steps ∈ paths.map components ↔ steps ∈ paths'.map components) :
    (sorted paths).map components = (sorted paths').map components := by
  have hsorted (paths : List Path) : ((sorted paths).map components).Pairwise fun as bs =>
      compareComponents as bs = .lt := List.pairwise_map.2 (pairwise_sorted paths)
  apply eq_of_pairwise_lt (hsorted paths) (hsorted paths')
  intro steps
  rw [mem_steps_sorted, mem_steps_sorted, h]

/-- No path is spelled in two ways. -/
def SpelledOnce (paths : List Path) : Prop :=
  ∀ p ∈ paths, ∀ q ∈ paths, p.components = q.components → p = q

theorem mem_sorted (hspelled : SpelledOnce paths) : q ∈ sorted paths ↔ q ∈ paths := by
  refine ⟨mem_of_mem_sorted, fun hq => ?_⟩
  obtain ⟨r, hr, hsame⟩ := exists_same_sorted hq
  rwa [← hspelled r (mem_of_mem_sorted hr) q hq (same_iff.1 hsame)]

/-- Where no path is spelled in two ways the spelling is the same, too. -/
theorem sorted_congr {paths' : List Path} (h : ∀ p, p ∈ paths ↔ p ∈ paths')
    (hspelled : SpelledOnce paths) : sorted paths = sorted paths' := by
  have hspelled' : SpelledOnce paths' := by
    simpa only [SpelledOnce, h] using hspelled
  apply eq_of_pairwise_lt (pairwise_sorted paths) (pairwise_sorted paths')
  intro q
  rw [mem_sorted hspelled, mem_sorted hspelled', h]

end Path

end Polyglot
