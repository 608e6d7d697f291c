import Polyglot.Config.Search

/-!
# The search by names

The search for cycles as it is told without marks and numbers. It keeps the names below which there is
no cycle, and the way to the chain at hand: the chains on it, the last one in front, each with the
references in it that are still to be followed. A step follows one reference, or goes back from a chain
that has none left; a reference to a chain on the way closes a cycle.

`step` is what the search does; `Goes` says what a step that goes on can be, and `Stops` where the
search ends.
-/

set_option autoImplicit false

namespace Polyglot

/-- A chain on the way of a search, with the references that are still to be followed. -/
structure Frame where
  name : String
  pending : List String
deriving DecidableEq, Repr

/-- A search for cycles: the names below which there is none, and the way. -/
structure Search where
  done : List String
  way : List Frame
deriving DecidableEq, Repr

namespace Search

/-- The search from a chain on. -/
def start (done : List String) (d : ChainDefinition) : Search :=
  ⟨done, [⟨d.name, d.children⟩]⟩

/-- The part of a way, given by its names with the last one in front, from a name on, in order. -/
def cycleFrom (name : String) (names : List String) : List String :=
  name :: (names.takeWhile (· != name)).reverse

/-- One step of a search. -/
def step (definitions : List ChainDefinition) : Search → Move Search (List String)
  | ⟨done, []⟩ => .stop (.clear done)
  | ⟨done, ⟨name, []⟩ :: behind⟩ => .on ⟨name :: done, behind⟩
  | ⟨done, ⟨name, child :: pending⟩ :: behind⟩ =>
    let names := name :: behind.map (·.name)
    match ChainDefinition.find? definitions child with
    | none => .stop (.undefined child)
    | some d =>
      if done.contains child then .on ⟨done, ⟨name, pending⟩ :: behind⟩
      else if names.contains child then .stop (.closed (cycleFrom child names ++ [child]))
      else .on ⟨done, ⟨child, d.children⟩ :: ⟨name, pending⟩ :: behind⟩

section Equations

variable {definitions : List ChainDefinition} {done pending : List String} {name child : String}
  {behind : List Frame} {d : ChainDefinition}

theorem step_undefined (missing : ChainDefinition.find? definitions child = none) :
    step definitions ⟨done, ⟨name, child :: pending⟩ :: behind⟩ = .stop (.undefined child) := by
  simp only [step, missing]

theorem step_past (found : ChainDefinition.find? definitions child = some d)
    (known : child ∈ done) :
    step definitions ⟨done, ⟨name, child :: pending⟩ :: behind⟩ =
      .on ⟨done, ⟨name, pending⟩ :: behind⟩ := by
  simp [step, found, known]

theorem step_closed (found : ChainDefinition.find? definitions child = some d)
    (notDone : child ∉ done) (onWay : child ∈ name :: behind.map (·.name)) :
    step definitions ⟨done, ⟨name, child :: pending⟩ :: behind⟩ =
      .stop (.closed (cycleFrom child (name :: behind.map (·.name)) ++ [child])) := by
  simp only [step, found]
  rw [if_neg (by simpa using notDone), if_pos (by simpa using onWay)]

theorem step_into (found : ChainDefinition.find? definitions child = some d)
    (notDone : child ∉ done) (notOnWay : child ∉ name :: behind.map (·.name)) :
    step definitions ⟨done, ⟨name, child :: pending⟩ :: behind⟩ =
      .on ⟨done, ⟨child, d.children⟩ :: ⟨name, pending⟩ :: behind⟩ := by
  simp only [step, found]
  rw [if_neg (by simpa using notDone), if_neg (by simpa using notOnWay)]

end Equations

/-- The steps that go on: back from a chain, past a chain below which there is no cycle, and into
a chain that the search has not come by. -/
inductive Goes (definitions : List ChainDefinition) : Search → Search → Prop where
  | back {done : List String} {name : String} {behind : List Frame} :
      Goes definitions ⟨done, ⟨name, []⟩ :: behind⟩ ⟨name :: done, behind⟩
  | past {done : List String} {name child : String} {pending : List String} {behind : List Frame}
      (known : child ∈ done) :
      Goes definitions ⟨done, ⟨name, child :: pending⟩ :: behind⟩
        ⟨done, ⟨name, pending⟩ :: behind⟩
  | into {done : List String} {name child : String} {pending : List String} {behind : List Frame}
      {d : ChainDefinition} (found : ChainDefinition.find? definitions child = some d)
      (notDone : child ∉ done) (notOnWay : child ∉ name :: behind.map (·.name)) :
      Goes definitions ⟨done, ⟨name, child :: pending⟩ :: behind⟩
        ⟨done, ⟨child, d.children⟩ :: ⟨name, pending⟩ :: behind⟩

theorem goes_of_step {definitions : List ChainDefinition} {s next : Search}
    (h : s.step definitions = .on next) : Goes definitions s next := by
  match s, h with
  | ⟨done, ⟨name, []⟩ :: behind⟩, h =>
    obtain rfl := Move.on.inj h
    exact .back
  | ⟨done, ⟨name, child :: pending⟩ :: behind⟩, h =>
    simp only [step] at h
    split at h
    · cases h
    · next d hfound =>
      split at h
      · next hdone =>
        obtain rfl := Move.on.inj h
        exact .past (by simpa using hdone)
      · next hdone =>
        split at h
        · cases h
        · next hnames =>
          obtain rfl := Move.on.inj h
          exact .into hfound (by simpa using hdone) (by simpa using hnames)

/-- The ends of a search: nothing is left of the way, the next child is not defined, or it is on the
way. -/
inductive Stops (definitions : List ChainDefinition) : Search → Verdict (List String) → Prop where
  | clear {done : List String} : Stops definitions ⟨done, []⟩ (.clear done)
  | undefined {done : List String} {name child : String} {pending : List String}
      {behind : List Frame} (missing : ChainDefinition.find? definitions child = none) :
      Stops definitions ⟨done, ⟨name, child :: pending⟩ :: behind⟩ (.undefined child)
  | closed {done : List String} {name child : String} {pending : List String}
      {behind : List Frame} (onWay : child ∈ name :: behind.map (·.name)) :
      Stops definitions ⟨done, ⟨name, child :: pending⟩ :: behind⟩
        (.closed (cycleFrom child (name :: behind.map (·.name)) ++ [child]))

theorem stops_of_step {definitions : List ChainDefinition} {s : Search} {v : Verdict (List String)}
    (h : s.step definitions = .stop v) : Stops definitions s v := by
  match s, h with
  | ⟨done, []⟩, h =>
    obtain rfl := Move.stop.inj h
    exact .clear
  | ⟨done, ⟨name, child :: pending⟩ :: behind⟩, h =>
    simp only [step] at h
    split at h
    · next hmissing =>
      obtain rfl := Move.stop.inj h
      exact .undefined hmissing
    · split at h
      · cases h
      · split at h
        · next hnames =>
          obtain rfl := Move.stop.inj h
          exact .closed (by simpa using hnames)
        · cases h

/-! ## The work that is left -/

/-- The names that the search has come by. -/
def known (s : Search) : List String :=
  s.done ++ s.way.map (·.name)

theorem mem_known {s : Search} {name : String} :
    name ∈ s.known ↔ name ∈ s.done ∨ name ∈ s.way.map (·.name) :=
  List.mem_append

/-- What is left to do: the references to follow and the chains to go back from, on the way and in
the chains that the search has not come by. -/
def remaining (definitions : List ChainDefinition) (s : Search) : Nat :=
  weigh (fun d => d.children.length + 1) (definitions.filter fun d => d.name ∉ s.known) +
    weigh (fun f => f.pending.length + 1) s.way

/-- What a search has come by it does not forget. -/
theorem Goes.known_mono {definitions : List ChainDefinition} {s next : Search}
    (h : Goes definitions s next) {name : String} (hname : name ∈ s.known) : name ∈ next.known := by
  cases h with
  | back =>
    simp only [mem_known, List.map_cons, List.mem_cons] at hname ⊢
    rcases hname with hdone | rfl | hway
    · exact .inl (.inr hdone)
    · exact .inl (.inl rfl)
    · exact .inr hway
  | past => exact hname
  | into =>
    simp only [mem_known, List.map_cons, List.mem_cons] at hname ⊢
    rcases hname with hdone | hway
    · exact .inl hdone
    · exact .inr (.inr hway)

/-- A search that goes on has less left to do. -/
theorem Goes.remaining_lt {definitions : List ChainDefinition} {s next : Search}
    (h : Goes definitions s next) : next.remaining definitions < s.remaining definitions := by
  have hle : ∀ d : ChainDefinition, decide (d.name ∉ next.known) = true →
      decide (d.name ∉ s.known) = true := by
    intro d hd
    rw [decide_eq_true_eq] at hd ⊢
    exact fun hknown => hd (h.known_mono hknown)
  have hrest := weigh_filter_le (w := fun d => d.children.length + 1) hle definitions
  cases h with
  | back =>
    simp only [remaining, weigh] at hrest ⊢
    omega
  | past =>
    simp only [remaining, weigh, List.length_cons] at hrest ⊢
    omega
  | @into done name child pending behind d found notDone notOnWay =>
    have hd : d ∈ definitions := List.mem_of_find?_eq_some found
    have hname : d.name = child := by simpa using List.find?_some found
    have hless := weigh_filter_add_le (w := fun d => d.children.length + 1) hle hd
      (by simp only [decide_eq_true_eq, mem_known, hname, not_or]; exact ⟨notDone, notOnWay⟩)
      (by simp [mem_known, hname])
    simp only [remaining, weigh, List.length_cons] at hless ⊢
    omega

/-- What a search ends with. -/
def run (definitions : List ChainDefinition) (s : Search) : Verdict (List String) :=
  Move.run (step definitions) (remaining definitions)
    (fun _ _ h => (goes_of_step h).remaining_lt) s

end Search

end Polyglot
