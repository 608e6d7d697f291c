import Polyglot.Config.Definition

/-!
# Looking for cycles

Chain definitions refer to each other by name. A search goes through them depth first from one
definition on. It keeps a mark for every definition, and a stack: the definitions on the way, the last
one in front, each with the number of the reference in it that comes next. A step follows one
reference, or goes back from a definition that has none left; a reference to a definition on the way
closes a cycle.

`step` is what the search does; `Goes` says what a step that goes on can be, and `Stops` where the
search ends. A step that goes on leaves less to do (`Goes.remaining_lt`), so a search ends whatever the
definitions are.
-/

set_option autoImplicit false

namespace Polyglot

namespace ChainDefinition

/-- The definition of a name. -/
def find? (definitions : List ChainDefinition) (name : String) : Option ChainDefinition :=
  definitions.find? fun d => d.name == name

/-- The number of the definition of a name. -/
def index? (definitions : List ChainDefinition) (name : String) :
    Option (Fin definitions.length) :=
  definitions.findFinIdx? fun d => d.name == name

end ChainDefinition

/-- What a search knows of a definition that it has come by: it is on the way, or no cycle is below
it. -/
inductive Mark where
  | visiting
  | done
deriving DecidableEq, Repr

/-- What a search ends with: what is known when no cycle is found, a path that closes one, or a
reference to a name that is not defined. -/
inductive Verdict (α : Type) where
  | clear (known : α)
  | closed (path : List String)
  | undefined (name : String)
deriving DecidableEq, Repr

/-- What a step of a search gives. -/
inductive Move (σ α : Type) where
  | on (s : σ)
  | stop (v : Verdict α)
deriving DecidableEq, Repr

/-- What a search ends with each of whose steps leaves less work. -/
def Move.run {σ α : Type} (step : σ → Move σ α) (work : σ → Nat)
    (less : ∀ s next, step s = .on next → work next < work s) (s : σ) : Verdict α :=
  match _h : step s with
  | .on next => Move.run step work less next
  | .stop v => v
termination_by work s
decreasing_by exact less s next _h

/-! ## Weights -/

/-- The weights of the members of a list together. -/
def weigh {α : Type} (w : α → Nat) : List α → Nat
  | [] => 0
  | a :: l => w a + weigh w l

section Weights

variable {α : Type} {w : α → Nat} {p q : α → Bool}

/-- A part of a list weighs no more than a larger part. -/
theorem weigh_filter_le (hle : ∀ a, q a = true → p a = true) (l : List α) :
    weigh w (l.filter q) ≤ weigh w (l.filter p) := by
  induction l with
  | nil => exact Nat.le_refl _
  | cons b l ih =>
    cases hq : q b with
    | true =>
      rw [List.filter_cons_of_pos hq, List.filter_cons_of_pos (hle b hq)]
      exact Nat.add_le_add_left ih (w b)
    | false =>
      rw [List.filter_cons_of_neg (by simp [hq]), List.filter_cons]
      split
      · exact Nat.le_trans ih (Nat.le_add_left _ _)
      · exact ih

/-- It weighs less by what a member does that it lacks. -/
theorem weigh_filter_add_le (hle : ∀ a, q a = true → p a = true) {l : List α} {a : α} (ha : a ∈ l)
    (hp : p a = true) (hq : q a = false) :
    weigh w (l.filter q) + w a ≤ weigh w (l.filter p) := by
  induction l with
  | nil => cases ha
  | cons b l ih =>
    rcases List.mem_cons.1 ha with rfl | ha
    · have hrest := weigh_filter_le (w := w) hle l
      rw [List.filter_cons_of_neg (by simp [hq]), List.filter_cons_of_pos hp, weigh]
      omega
    · have hrest := ih ha
      cases hb : q b with
      | true =>
        rw [List.filter_cons_of_pos hb, List.filter_cons_of_pos (hle b hb), weigh, weigh]
        omega
      | false =>
        rw [List.filter_cons_of_neg (by simp [hb]), List.filter_cons]
        split
        · rw [weigh]
          omega
        · exact hrest

end Weights

/-! ## The search -/

/-- The marks of `n` definitions; some have none. -/
abbrev Marks (n : Nat) :=
  Vector (Option Mark) n

/-- A search for cycles among `n` definitions: the marks, and the way. -/
structure MarkSearch (n : Nat) where
  marks : Marks n
  stack : List (Fin n × Nat)

namespace MarkSearch

/-- Nothing is marked. -/
def unmarked (n : Nat) : Marks n :=
  Vector.replicate n none

theorem get_unmarked {n : Nat} (i : Fin n) : (unmarked n).get i = none :=
  Vector.getElem_replicate i.isLt

/-- The marks when a definition is marked. -/
def mark {n : Nat} (marks : Marks n) (i : Fin n) (m : Mark) : Marks n :=
  marks.set i (some m) i.isLt

theorem get_mark {n : Nat} (marks : Marks n) (i j : Fin n) (m : Mark) :
    (mark marks i m).get j = if i = j then some m else marks.get j := by
  refine (Vector.getElem_set i.isLt j.isLt).trans ?_
  simp only [Fin.ext_iff]
  rfl

/-- The search from a definition on. -/
def start {n : Nat} (marks : Marks n) (i : Fin n) : MarkSearch n :=
  ⟨mark marks i .visiting, [(i, 0)]⟩

/-- How far along the way a definition stands. -/
def position? {n : Nat} (s : MarkSearch n) (i : Fin n) : Option Nat :=
  s.stack.reverse.findIdx? fun f => f.1 == i

section Steps

variable (definitions : List ChainDefinition)

/-- The path that a reference closes to a definition on the way: the names from there on, and its name
once more. -/
def closing (s : MarkSearch definitions.length) (i : Fin definitions.length) : List String :=
  (s.stack.reverse.drop ((s.position? i).getD 0)).map (fun f => (definitions.get f.1).name) ++
    [(definitions.get i).name]

/-- One step of a search. -/
def step : MarkSearch definitions.length →
    Move (MarkSearch definitions.length) (Marks definitions.length)
  | ⟨marks, []⟩ => .stop (.clear marks)
  | ⟨marks, (i, next) :: below⟩ =>
    match (definitions.get i).children[next]? with
    | none => .on ⟨mark marks i .done, below⟩
    | some name =>
      let stack := (i, next + 1) :: below
      match ChainDefinition.index? definitions name with
      | none => .stop (.undefined name)
      | some child =>
        match marks.get child with
        | some .done => .on ⟨marks, stack⟩
        | some .visiting => .stop (.closed (closing definitions ⟨marks, stack⟩ child))
        | none => .on ⟨mark marks child .visiting, (child, 0) :: stack⟩

/-- The steps that go on: back from a definition with no reference left, past a definition below which
there is no cycle, and into one that has no mark. -/
inductive Goes : MarkSearch definitions.length → MarkSearch definitions.length → Prop where
  | back {marks : Marks definitions.length} {i : Fin definitions.length} {next : Nat}
      {below : List (Fin definitions.length × Nat)}
      (last : (definitions.get i).children[next]? = none) :
      Goes ⟨marks, (i, next) :: below⟩ ⟨mark marks i .done, below⟩
  | past {marks : Marks definitions.length} {i child : Fin definitions.length}
      {next : Nat} {below : List (Fin definitions.length × Nat)} {name : String}
      (refers : (definitions.get i).children[next]? = some name)
      (found : ChainDefinition.index? definitions name = some child)
      (known : marks.get child = some .done) :
      Goes ⟨marks, (i, next) :: below⟩ ⟨marks, (i, next + 1) :: below⟩
  | into {marks : Marks definitions.length} {i child : Fin definitions.length}
      {next : Nat} {below : List (Fin definitions.length × Nat)} {name : String}
      (refers : (definitions.get i).children[next]? = some name)
      (found : ChainDefinition.index? definitions name = some child)
      (unmarked : marks.get child = none) :
      Goes ⟨marks, (i, next) :: below⟩
        ⟨mark marks child .visiting, (child, 0) :: (i, next + 1) :: below⟩

/-- The ends of a search: nothing is left of the way, the next reference is not defined, or it is to a
definition on the way. -/
inductive Stops : MarkSearch definitions.length → Verdict (Marks definitions.length) → Prop where
  | clear {marks : Marks definitions.length} : Stops ⟨marks, []⟩ (.clear marks)
  | undefined {marks : Marks definitions.length} {i : Fin definitions.length}
      {next : Nat} {below : List (Fin definitions.length × Nat)} {name : String}
      (refers : (definitions.get i).children[next]? = some name)
      (missing : ChainDefinition.index? definitions name = none) :
      Stops ⟨marks, (i, next) :: below⟩ (.undefined name)
  | closed {marks : Marks definitions.length} {i child : Fin definitions.length}
      {next : Nat} {below : List (Fin definitions.length × Nat)} {name : String}
      (refers : (definitions.get i).children[next]? = some name)
      (found : ChainDefinition.index? definitions name = some child)
      (onWay : marks.get child = some .visiting) :
      Stops ⟨marks, (i, next) :: below⟩
        (.closed (closing definitions ⟨marks, (i, next + 1) :: below⟩ child))

end Steps

section Cases

variable {definitions : List ChainDefinition} {s next : MarkSearch definitions.length}

theorem goes_of_step (h : s.step definitions = .on next) : Goes definitions s next := by
  obtain ⟨marks, _ | ⟨⟨i, k⟩, below⟩⟩ := s
  · cases h
  · simp only [step] at h
    split at h
    · next hlast =>
      obtain rfl := Move.on.inj h
      exact .back hlast
    · next name hrefers =>
      split at h
      · cases h
      · next child hfound =>
        split at h
        · next hknown =>
          obtain rfl := Move.on.inj h
          exact .past hrefers hfound hknown
        · cases h
        · next hunmarked =>
          obtain rfl := Move.on.inj h
          exact .into hrefers hfound hunmarked

theorem stops_of_step {v : Verdict (Marks definitions.length)}
    (h : s.step definitions = .stop v) : Stops definitions s v := by
  obtain ⟨marks, _ | ⟨⟨i, k⟩, below⟩⟩ := s
  · obtain rfl := Move.stop.inj h
    exact .clear
  · simp only [step] at h
    split at h
    · cases h
    · next name hrefers =>
      split at h
      · next hmissing =>
        obtain rfl := Move.stop.inj h
        exact .undefined hrefers hmissing
      · next child hfound =>
        split at h
        · cases h
        · next honWay =>
          obtain rfl := Move.stop.inj h
          exact .closed hrefers hfound honWay
        · cases h

/-! ## The work that is left -/

/-- What is left to do: the references to follow and the definitions to go back from, on the way and
among those that have no mark. -/
def remaining (definitions : List ChainDefinition) (s : MarkSearch definitions.length) : Nat :=
  weigh (fun i => (definitions.get i).children.length + 1)
      ((List.finRange definitions.length).filter fun i => (s.marks.get i).isNone) +
    weigh (fun f => (definitions.get f.1).children.length - f.2 + 1) s.stack

/-- A mark more leaves no more definitions without one. -/
theorem isNone_of_mark {n : Nat} (marks : Marks n) (i : Fin n) (m : Mark)
    (j : Fin n) (h : ((mark marks i m).get j).isNone = true) : (marks.get j).isNone = true := by
  rw [get_mark] at h
  split at h
  · cases h
  · exact h

/-- A search that goes on has less left to do. -/
theorem Goes.remaining_lt (h : Goes definitions s next) :
    next.remaining definitions < s.remaining definitions := by
  cases h with
  | @back marks i k below last =>
    have hrest := weigh_filter_le (w := fun j => (definitions.get j).children.length + 1)
      (isNone_of_mark marks i .done) (List.finRange definitions.length)
    simp only [remaining, weigh]
    omega
  | past refers =>
    have hlt := (List.getElem?_eq_some_iff.1 refers).1
    simp only [remaining, weigh]
    omega
  | @into marks i child k below name refers found unmarked =>
    have hlt := (List.getElem?_eq_some_iff.1 refers).1
    have hless := weigh_filter_add_le (w := fun j => (definitions.get j).children.length + 1)
      (isNone_of_mark marks child .visiting) (List.mem_finRange child)
      (by simp [unmarked]) (by simp [get_mark])
    simp only [remaining, weigh] at hless ⊢
    omega

end Cases

/-- What a search ends with. -/
def run (definitions : List ChainDefinition) (s : MarkSearch definitions.length) :
    Verdict (Marks definitions.length) :=
  Move.run (step definitions) (remaining definitions)
    (fun _ _ h => (goes_of_step h).remaining_lt) s

end MarkSearch

end Polyglot
