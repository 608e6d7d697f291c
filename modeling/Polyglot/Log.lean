/-!
# Outcomes with a log

`Logged ε α` is the outcome of a step that may fail and reports records on the way. The
records are kept whether it fails or not, and no step can read them, so a proof about
outcomes may forget them: `result_bind` says that outcomes compose as if nothing was logged.
-/

set_option autoImplicit false

namespace Polyglot

/-- How much a record matters. -/
inductive Level where
  | debug
  | warn
deriving DecidableEq, Repr

/-- The level as it is printed. -/
def Level.label : Level → String
  | .debug => "DEBUG"
  | .warn => "WARN"

/-- One line of the log. -/
structure Record where
  level : Level
  text : String
deriving DecidableEq, Repr

/-- The line with its level in front. -/
def Record.line (r : Record) : String :=
  r.level.label ++ " " ++ r.text

/-- The records of a step, oldest first, and its outcome. -/
structure Logged (ε α : Type) where
  records : List Record
  result : Except ε α

namespace Logged

variable {ε ε' α β : Type}

/-- An outcome that logs nothing. -/
def of (result : Except ε α) : Logged ε α :=
  ⟨[], result⟩

/-- Reports a record of level `debug`. -/
def debug (text : String) : Logged ε Unit :=
  ⟨[⟨.debug, text⟩], .ok ()⟩

/-- Reports a record of level `warn`. -/
def warn (text : String) : Logged ε Unit :=
  ⟨[⟨.warn, text⟩], .ok ()⟩

/-- Runs the second step on what the first gives; a failure ends the run. -/
def andThen (x : Logged ε α) (f : α → Logged ε β) : Logged ε β :=
  match x.result with
  | .ok a => ⟨x.records ++ (f a).records, (f a).result⟩
  | .error e => ⟨x.records, .error e⟩

instance : Monad (Logged ε) where
  pure a := ⟨[], .ok a⟩
  bind := andThen

instance : MonadExcept ε (Logged ε) where
  throw e := ⟨[], .error e⟩
  tryCatch x handle := match x.result with
    | .ok _ => x
    | .error e => ⟨x.records ++ (handle e).records, (handle e).result⟩

/-- Replaces the error. -/
def mapError (f : ε → ε') (x : Logged ε α) : Logged ε' α :=
  ⟨x.records, x.result.mapError f⟩

@[simp] theorem result_pure (a : α) : (pure a : Logged ε α).result = .ok a := rfl

@[simp] theorem result_of (r : Except ε α) : (of r).result = r := rfl

@[simp] theorem result_throw (e : ε) : (throw e : Logged ε α).result = .error e := rfl

@[simp] theorem result_debug (text : String) : (debug text : Logged ε Unit).result = .ok () := rfl

@[simp] theorem result_warn (text : String) : (warn text : Logged ε Unit).result = .ok () := rfl

@[simp] theorem result_bind (x : Logged ε α) (f : α → Logged ε β) :
    (x >>= f).result = x.result.bind fun a => (f a).result := by
  cases h : x.result <;> simp [bind, andThen, Except.bind, h]

instance : LawfulMonad (Logged ε) :=
  LawfulMonad.mk' (Logged ε)
    (fun ⟨_, r⟩ => by cases r <;> simp [Functor.map, andThen])
    (fun a f => by simp [bind, andThen, pure])
    (fun ⟨_, r⟩ f g => by
      cases r with
      | error e => simp [bind, andThen]
      | ok a => cases h : (f a).result <;> simp [bind, andThen, h])

end Logged

end Polyglot
