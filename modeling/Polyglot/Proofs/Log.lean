import Polyglot.Log

/-!
# Steps that log

What is known of the outcome of two steps, of a fold over steps, and of a step whose error is named
differently, whatever they log. A run that ends well is made of steps that do (`Logged.bind_ok`), and
one that fails is made of some that end well and one that fails (`Logged.bind_error`).
-/

set_option autoImplicit false

namespace Polyglot

section Naming

variable {ε ε' α : Type} {x : Except ε α} {f : ε → ε'}

/-- Naming the error differently makes no difference to what ends well. -/
theorem ok_of_mapError_ok {a : α} (h : x.mapError f = .ok a) : x = .ok a := by
  cases x with
  | error e => cases h
  | ok b =>
    obtain rfl := Except.ok.inj h
    rfl

theorem exists_of_mapError_error {e : ε'} (h : x.mapError f = .error e) :
    ∃ cause, f cause = e := by
  cases x with
  | error cause => exact ⟨cause, Except.error.inj h⟩
  | ok a => cases h

/-- What is made of an outcome that ends well is made of one that does. -/
theorem exists_of_map_ok {β : Type} {g : α → β} {b : β} (h : x.map g = .ok b) :
    ∃ a, x = .ok a ∧ g a = b := by
  cases x with
  | error e => cases h
  | ok a => exact ⟨a, rfl, Except.ok.inj h⟩

end Naming

namespace Logged

variable {ε ε' α β γ : Type}

/-! ## Two steps -/

section Bind

variable {x : Logged ε α} {f : α → Logged ε β}

/-- A step that ends well is two steps that do. -/
theorem bind_ok {b : β} (h : (x >>= f).result = .ok b) :
    ∃ a, x.result = .ok a ∧ (f a).result = .ok b := by
  rw [result_bind] at h
  cases hx : x.result with
  | error e =>
    rw [hx] at h
    cases h
  | ok a =>
    rw [hx] at h
    exact ⟨a, rfl, h⟩

/-- A failure is one of the first step, or of the second behind a first that ended well. -/
theorem bind_error {e : ε} (h : (x >>= f).result = .error e) :
    x.result = .error e ∨ ∃ a, x.result = .ok a ∧ (f a).result = .error e := by
  rw [result_bind] at h
  cases hx : x.result with
  | error e' =>
    rw [hx] at h
    exact .inl (congrArg _ (Except.error.inj h))
  | ok a =>
    rw [hx] at h
    exact .inr ⟨a, rfl, h⟩

/-- Behind a step that ends well the outcome is that of the next one. -/
theorem result_bind_of_ok {a : α} (h : x.result = .ok a) (f : α → Logged ε β) :
    (x >>= f).result = (f a).result := by
  rw [result_bind, h]
  rfl

/-- Second steps need to agree only on what the first can give. -/
theorem bind_congr {g : α → Logged ε β} (hnext : ∀ a, x.result = .ok a → f a = g a) :
    x >>= f = x >>= g := by
  obtain ⟨records, result⟩ := x
  cases result with
  | error e => rfl
  | ok a => simp [bind, andThen, hnext a rfl]

/-- Naming the errors differently commutes with running one step after the other. The second steps
need to agree only on what the first can give. -/
theorem mapError_bind {g : α → Logged ε' β} {name : ε → ε'}
    (hnext : ∀ a, x.result = .ok a → g a = (f a).mapError name) :
    x.mapError name >>= g = (x >>= f).mapError name := by
  obtain ⟨records, result⟩ := x
  cases result with
  | error e => rfl
  | ok a =>
    have hmap : (⟨records, .ok a⟩ : Logged ε α).mapError name = ⟨records, .ok a⟩ := rfl
    rw [hmap]
    simp [bind, andThen, hnext a rfl, mapError]

end Bind

/-! ## Folds -/

section Fold

variable {f : β → α → Logged ε β} {l : List α}

/-- What every step of a fold keeps, a fold that ends well keeps. -/
theorem foldlM_inv {Inv : β → Prop}
    (step : ∀ a ∈ l, ∀ b b', Inv b → (f b a).result = .ok b' → Inv b') {b b' : β} (hb : Inv b)
    (h : (l.foldlM f b).result = .ok b') : Inv b' := by
  induction l generalizing b with
  | nil =>
    obtain rfl : b = b' := by simpa using h
    exact hb
  | cons a l ih =>
    rw [List.foldlM_cons] at h
    obtain ⟨c, hstep, h⟩ := bind_ok h
    apply ih
    · intro a ha
      exact step a (List.mem_cons_of_mem _ ha)
    · exact step a List.mem_cons_self b c hb hstep
    · exact h

/-- If every step of a fold appends to what is seen of the state, so does the fold. -/
theorem foldlM_appends {view : β → List γ} {out : α → List γ}
    (step : ∀ a ∈ l, ∀ b b', (f b a).result = .ok b' → view b' = view b ++ out a) {b b' : β}
    (h : (l.foldlM f b).result = .ok b') : view b' = view b ++ l.flatMap out := by
  induction l generalizing b with
  | nil =>
    obtain rfl : b = b' := by simpa using h
    simp
  | cons a l ih =>
    rw [List.foldlM_cons] at h
    obtain ⟨c, hstep, h⟩ := bind_ok h
    rw [ih (fun a ha => step a (List.mem_cons_of_mem _ ha)) h, step a List.mem_cons_self b c hstep,
      List.flatMap_cons, List.append_assoc]

/-- A fold whose steps all end well ends well. -/
theorem exists_foldlM (step : ∀ a ∈ l, ∀ b, ∃ b', (f b a).result = .ok b') (b : β) :
    ∃ b', (l.foldlM f b).result = .ok b' := by
  induction l generalizing b with
  | nil => exact ⟨b, rfl⟩
  | cons a l ih =>
    obtain ⟨c, hc⟩ := step a List.mem_cons_self b
    obtain ⟨b', hb'⟩ := ih (fun a ha => step a (List.mem_cons_of_mem _ ha)) c
    refine ⟨b', ?_⟩
    rw [List.foldlM_cons, result_bind_of_ok hc]
    exact hb'

/-- The failure of a fold is that of one of its steps. -/
theorem foldlM_error {P : ε → Prop}
    (step : ∀ a ∈ l, ∀ b e, (f b a).result = .error e → P e) {b : β} {e : ε}
    (h : (l.foldlM f b).result = .error e) : P e := by
  induction l generalizing b with
  | nil => cases h
  | cons a l ih =>
    rw [List.foldlM_cons] at h
    rcases bind_error h with h | ⟨c, -, h⟩
    · exact step a List.mem_cons_self b e h
    · exact ih (fun a ha => step a (List.mem_cons_of_mem _ ha)) h

end Fold

end Logged

end Polyglot
