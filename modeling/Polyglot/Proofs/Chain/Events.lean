import Polyglot.Proofs.Chain.Observers
import Polyglot.Proofs.Chain.Shape

/-!
# What happens in a resolution

`Traced` notes the events of a resolution beside its outcome, and `ChainSpec.Traced.resolve` is the
resolution seen by an observer who notes them: forgetting them gives the outcome and the log of the
resolution that nobody watches (`outcome_resolve`).

With the events at hand it can be said what does not happen. The shape of the chain is checked
before anything else: a chain that is turned down for its shape leaves no event
(`shape_checked_first`).
-/

set_option autoImplicit false

namespace Polyglot

/-- The events of a step, oldest first, and its outcome. -/
structure Traced (α : Type) where
  events : List Event
  outcome : Logged ChainError α

namespace Traced

variable {α β : Type}

/-- Runs the second step on what the first gives. A first step that fails is the last. -/
def andThen (x : Traced α) (f : α → Traced β) : Traced β where
  events := x.events ++
    match x.outcome.result with
    | .ok a => (f a).events
    | .error _ => []
  outcome := x.outcome >>= fun a => (f a).outcome

instance : Monad Traced where
  pure a := ⟨[], pure a⟩
  bind := andThen

theorem outcome_bind (x : Traced α) (f : α → Traced β) :
    (x >>= f).outcome = x.outcome >>= fun a => (f a).outcome := rfl

/-- Behind a step that fails nothing happens. -/
theorem bind_of_error {x : Traced α} {e : ChainError} (h : x.outcome.result = .error e)
    (f : α → Traced β) : x >>= f = ⟨x.events, ⟨x.outcome.records, .error e⟩⟩ := by
  simp [bind, andThen, Logged.andThen, h]

theorem bind_of_ok {x : Traced α} {a : α} (h : x.outcome.result = .ok a) (f : α → Traced β) :
    x >>= f = ⟨x.events ++ (f a).events,
      ⟨x.outcome.records ++ (f a).outcome.records, (f a).outcome.result⟩⟩ := by
  simp [bind, andThen, Logged.andThen, h]

/-- Notes every event. -/
def observer : Observer Traced :=
  ⟨fun e => ⟨[e], pure ()⟩, fun x => ⟨[], x⟩⟩

end Traced

namespace ChainSpec.Traced

/-- The tree of one range of a parent. -/
def resolveRange (grammar : Grammar) (parent : SyntaxTree) (language : Language)
    (editor : Option Editor) (occurrence : Nat) (range : Span) : Traced SyntaxTree :=
  resolveRangeBy Traced.observer grammar parent language editor occurrence range

/-- Adds the trees that some nested chains find in a parent. -/
def resolveNested (grammar : Grammar) (parent : SyntaxTree) (children : List ChainSpec)
    (forest : Forest) : Traced Forest :=
  resolveNestedBy Traced.observer grammar parent children forest

/-- Adds the trees that one nested chain finds in a parent. -/
def resolveChild (grammar : Grammar) (parent : SyntaxTree) (s : ChainSpec) (forest : Forest) :
    Traced Forest :=
  resolveChildBy Traced.observer grammar parent s forest

/-- The forest of a buffer. -/
def resolve (grammar : Grammar) (buffer : Bytes) (spec : ChainSpec) : Traced Forest :=
  resolveBy Traced.observer grammar buffer spec

/-! ## Forgetting the events -/

theorem agree_absent : Traced.observer.Agree .absent fun t x => t.outcome = x where
  pure _ := rfl
  bind hx hf := by
    rw [Traced.outcome_bind, hx]
    exact Logged.bind_congr fun a _ => hf a
  see _ _ := rfl
  take _ := rfl
  behind hf := Logged.bind_congr hf

theorem outcome_resolveRange (grammar : Grammar) (parent : SyntaxTree) (language : Language)
    (editor : Option Editor) (occurrence : Nat) (range : Span) :
    (resolveRange grammar parent language editor occurrence range).outcome =
      ChainSpec.resolveRange grammar parent language editor occurrence range := by
  cases editor with
  | none => rfl
  | some w => rfl

theorem outcome_resolveChild (grammar : Grammar) (s : ChainSpec) (parent : SyntaxTree)
    (forest : Forest) :
    (resolveChild grammar parent s forest).outcome = ChainSpec.resolveChild grammar parent s forest :=
  agree_absent.resolveChildBy s parent forest

/-- The events are only noted: without them the resolution is the same. -/
theorem outcome_resolve (grammar : Grammar) (buffer : Bytes) (spec : ChainSpec) :
    (resolve grammar buffer spec).outcome = ChainSpec.resolve grammar buffer spec :=
  agree_absent.resolveBy grammar buffer spec

end ChainSpec.Traced

/-! ## The shape comes first -/

namespace ChainSpec

variable (grammar : Grammar) (buffer : Bytes) {spec : ChainSpec}

/-- A chain of the wrong shape is turned down before anything is done or logged. -/
theorem resolve_of_validate_error {e : ChainError} (h : spec.validate = .error e) :
    resolve grammar buffer spec = ⟨[], .error e⟩ ∧
      (Traced.resolve grammar buffer spec).events = [] := by
  have hturned : Traced.resolve grammar buffer spec = ⟨[], ⟨[], .error e⟩⟩ := by
    rw [Traced.resolve, resolveBy, Traced.bind_of_error h]
    rfl
  rw [← Traced.outcome_resolve, hturned]
  exact ⟨rfl, rfl⟩

/-- Behind the check the buffer is parsed. -/
theorem head?_events_of_validate (h : spec.validate = .ok ()) :
    (Traced.resolve grammar buffer spec).events.head? = some (.parsed spec.entry buffer) := by
  rw [Traced.resolve, resolveBy, Traced.bind_of_ok h]
  rfl

/-- What goes wrong behind the check is not the shape. -/
theorem not_ofShape_of_resolve (h : spec.validate = .ok ()) {e : ChainError}
    (he : (resolve grammar buffer spec).result = .error e) : ¬e.OfShape := by
  have hsome := (validate_eq_ok_iff.1 h).2
  rw [nested_eq] at hsome
  rw [resolve_eq] at he
  rcases Logged.bind_error he with hshape | ⟨_, -, he⟩
  · rw [Logged.result_of, h] at hshape
    cases hshape
  · rcases Logged.bind_error he with he | ⟨root, -, he⟩
    · obtain ⟨cause, rfl⟩ := error_of_parseRegion he
      exact nofun
    · rcases Logged.bind_error he with he | ⟨forest, -, he⟩
      · exact not_ofShape_of_resolveNested spec.children hsome root _ e he
      · cases he

/-- The errors of shape are those of the check. -/
theorem result_resolve_eq_error_iff {e : ChainError} (he : e.OfShape) :
    (resolve grammar buffer spec).result = .error e ↔ spec.validate = .error e := by
  cases h : spec.validate with
  | ok =>
    have hnot : (resolve grammar buffer spec).result ≠ .error e :=
      fun herror => not_ofShape_of_resolve grammar buffer h herror he
    exact ⟨fun herror => absurd herror hnot, nofun⟩
  | error e' =>
    have hresult : (resolve grammar buffer spec).result = .error e' := by
      rw [(resolve_of_validate_error grammar buffer h).1]
    rw [hresult, Except.error.injEq, Except.error.injEq]

/-- The shape of a chain is checked first, and it is not checked for anything else. The check
accepts a chain if its root has no extractor and every chain nested in it has one; of another
chain without extractor at the root it names what the search meets first. Whatever the grammar
and the buffer, the errors of shape of a resolution are those of the check, and then nothing has
been parsed, picked, sliced, edited, registered or logged. Behind the check the buffer is parsed,
and no error of shape arises, neither of the resolution nor of any nested chain in whatever parent
and forest. -/
theorem shape_checked_first (spec : ChainSpec) :
    ((spec.validate = .ok () ↔
        spec.extractor = none ∧ ∀ t ∈ spec.nested, t.extractor.isSome) ∧
      ∀ l, spec.validate = .error (.missingExtractor l) ↔
        spec.extractor = none ∧ searched spec.children.reverse = some l) ∧
    ∀ (grammar : Grammar) (buffer : Bytes),
      (Traced.resolve grammar buffer spec).outcome = resolve grammar buffer spec ∧
      (∀ e : ChainError, e.OfShape →
        ((resolve grammar buffer spec).result = .error e ↔ spec.validate = .error e)) ∧
      (∀ e, spec.validate = .error e → e.OfShape ∧
        resolve grammar buffer spec = ⟨[], .error e⟩ ∧
        (Traced.resolve grammar buffer spec).events = []) ∧
      (spec.validate = .ok () →
        (Traced.resolve grammar buffer spec).events.head? = some (.parsed spec.entry buffer) ∧
        (∀ e, (resolve grammar buffer spec).result = .error e → ¬e.OfShape) ∧
        ∀ t ∈ spec.nested, ∀ parent forest e,
          (resolveChild grammar parent t forest).result = .error e → ¬e.OfShape) := by
  refine ⟨⟨validate_eq_ok_iff, fun l => validate_eq_missing_iff⟩, fun grammar buffer => ?_⟩
  refine ⟨?_, ?_, ?_, fun h => ⟨?_, ?_, ?_⟩⟩
  · exact Traced.outcome_resolve grammar buffer spec
  · intro e he
    exact result_resolve_eq_error_iff grammar buffer he
  · intro e h
    exact ⟨ofShape_of_validate h, resolve_of_validate_error grammar buffer h⟩
  · exact head?_events_of_validate grammar buffer h
  · intro e he
    exact not_ofShape_of_resolve grammar buffer h he
  · intro t ht parent forest e he
    have hsome := (validate_eq_ok_iff.1 h).2
    exact not_ofShape_of_resolveChild t (hsome t ht)
      (fun u hu => hsome u (nested_trans hu spec ht)) parent forest e he

namespace Sample

/-- A grammar that parses nothing. -/
def refusing : Grammar := fun language _ => .error (.parseFailed language)

/-- Picks everything. -/
def everything : Extractor := ⟨"everything", fun _ bytes => [⟨0, bytes.length⟩]⟩

/-- A page with a page in it. -/
def framed : ChainSpec :=
  .mk .html [.mk .html [] (some everything) none] none none

/-- A page with a script and a page in it. Neither the script has an extractor nor the style sheet
of the inner page. -/
def unpicked : ChainSpec :=
  .mk .html
    [.mk .javaScript [] none none,
      .mk .html [.mk .css [] none none] (some everything) none] none none

end Sample

/-- Of two chains without extractor the check names the one below the last child, and the grammar
is not asked. -/
theorem shape_checked_first_framed :
    (Sample.unpicked.validate = .error (.missingExtractor .css) ∧
      searched Sample.unpicked.children.reverse = some .css ∧
      resolve Sample.refusing [60, 112, 62] Sample.unpicked =
        ⟨[], .error (.missingExtractor .css)⟩ ∧
      (Traced.resolve Sample.refusing [60, 112, 62] Sample.unpicked).events = []) ∧
    Sample.framed.validate = .ok () ∧
      (Traced.resolve Sample.refusing [60, 112, 62] Sample.framed).events.head? =
        some (.parsed .html [60, 112, 62]) ∧
      ¬(ChainError.parse .html 0 (.parseFailed .html)).OfShape := by
  have hunpicked : Sample.unpicked.validate = .error (.missingExtractor .css) := rfl
  have hframed : Sample.framed.validate = .ok () := rfl
  have hrefused : (resolve Sample.refusing [60, 112, 62] Sample.framed).result =
      .error (.parse .html 0 (.parseFailed .html)) := rfl
  obtain ⟨⟨-, hmissing⟩, hfirst⟩ := shape_checked_first Sample.unpicked
  obtain ⟨-, -, hturned, -⟩ := hfirst Sample.refusing [60, 112, 62]
  obtain ⟨-, hresolve, hevents⟩ := hturned _ hunpicked
  obtain ⟨-, hbehind⟩ := shape_checked_first Sample.framed
  obtain ⟨-, -, -, hsound⟩ := hbehind Sample.refusing [60, 112, 62]
  obtain ⟨hhead, herrors, -⟩ := hsound hframed
  exact ⟨⟨hunpicked, ((hmissing .css).1 hunpicked).2, hresolve, hevents⟩, hframed, hhead,
    herrors _ hrefused⟩

end ChainSpec

end Polyglot
