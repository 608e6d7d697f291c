import Polyglot.Proofs.Chain.Maps
import Polyglot.Proofs.Query.Cache
import Polyglot.Rule.Basic

/-!
# Runs that see nothing but their context

A run function is given a context, and what it does is put together from what the context offers:
it records violations and looks at them, asks queries, and fails or recovers from a failure
(`Contextual`). The state that it runs in holds more, the worker's cache and log. No such run can
tell two states apart that agree on what was recorded and whose caches are reachable (`Alike`), however
much the caches differ, and it leaves them alike (`Contextual.oblivious`). So a rule gives every
worker the same result (`Rule.Contextual.check`).
-/

set_option autoImplicit false

namespace Polyglot

namespace RunM

variable {α β : Type} {s s' : RunState} {a : α}

/-! ## Steps -/

/-- Behind a step the run goes on with what the step gave, or it ends with its failure. -/
theorem run_bind (x : RunM α) (f : α → RunM β) (s : RunState) :
    (x >>= f).run s = match x.run s with
      | (.ok a, s') => (f a).run s'
      | (.error e, s') => (.error e, s') := by
  show (ExceptT.bindCont f (x.run s).1 : StateM RunState _) (x.run s).2 = _
  cases x.run s with
  | mk result s' => cases result <;> rfl

/-- A failure is handed to the handler in the state that it left. -/
theorem run_tryCatch (x : RunM α) (handle : RunFailure → RunM α) (s : RunState) :
    (tryCatch x handle).run s = match x.run s with
      | (.ok a, s') => (.ok a, s')
      | (.error e, s') => (handle e).run s' := by
  show (ExceptT.tryCatch x handle).run s = _
  unfold ExceptT.tryCatch ExceptT.run ExceptT.mk
  simp only [bind, StateT.bind]
  cases x s with
  | mk result s' => cases result <;> rfl

/-- Behind a step that ends well the run is that of the next one. -/
theorem run_bind_of_ok {x : RunM α} (h : x.run s = (.ok a, s')) (f : α → RunM β) :
    (x >>= f).run s = (f a).run s' := by
  rw [run_bind, h]

/-- A question gives its answer, and nothing changes but the cache. -/
theorem run_ask (question : QueryCache → Except SyntaxError α × QueryCache) (s : RunState) :
    (ask question).run s = ((question s.worker.queries).1.mapError .query,
      { s with worker := { s.worker with queries := (question s.worker.queries).2 } }) := by
  show (ofSyntax (question s.worker.queries).1).run _ = _
  cases (question s.worker.queries).1 <;> rfl

/-! ## What a context offers -/

/-- The runs that are put together from what a context offers. -/
inductive Contextual (c : RuleContext) : {α : Type} → RunM α → Prop where
  | pure {α : Type} (a : α) : Contextual c (pure a : RunM α)
  | fail {α : Type} (failure : RunFailure) : Contextual c (throw failure : RunM α)
  | bind {α β : Type} {x : RunM α} {f : α → RunM β} (first : Contextual c x)
      (next : ∀ a, Contextual c (f a)) : Contextual c (x >>= f)
  | recover {α : Type} {x : RunM α} {handle : RunFailure → RunM α} (attempt : Contextual c x)
      (handler : ∀ failure, Contextual c (handle failure)) : Contextual c (tryCatch x handle)
  | violation (title : String) : Contextual c (RunM.violation title)
  | setRange (h : Handle) (a b : Nat) : Contextual c (RunM.setRange h a b)
  | recordMatches (title : String) (matched : List QueryMatch) :
      Contextual c (RunM.recordMatches title matched)
  | recorded : Contextual c RunM.recorded
  | query (l : Language) (text : String) : Contextual c (c.query l text)
  | queryAll (l : Language) (text : String) : Contextual c (c.queryAll l text)
  | getSyntax (l : Language) : Contextual c (c.getSyntax l)

/-! ## What a run can tell -/

/-- The states agree on what was recorded, and their caches are reachable. -/
structure Alike (compiler : QueryCompiler) (s s' : RunState) : Prop where
  recorder : s.recorder = s'.recorder
  left : s.worker.queries.Reachable compiler
  right : s'.worker.queries.Reachable compiler

/-- From states that are alike the run gives the same, and it leaves states that are alike. -/
def Oblivious (compiler : QueryCompiler) (x : RunM α) : Prop :=
  ∀ s s', Alike compiler s s' →
    (x.run s).1 = (x.run s').1 ∧ Alike compiler (x.run s).2 (x.run s').2

variable {compiler : QueryCompiler}

theorem Oblivious.bind {x : RunM α} {f : α → RunM β} (hx : Oblivious compiler x)
    (hf : ∀ a, Oblivious compiler (f a)) : Oblivious compiler (x >>= f) := by
  intro s s' h
  obtain ⟨hresult, halike⟩ := hx s s' h
  rw [run_bind, run_bind]
  cases hs : x.run s with
  | mk result t =>
    cases hs' : x.run s' with
    | mk result' t' =>
      rw [hs, hs'] at hresult halike
      obtain rfl : result = result' := hresult
      cases result with
      | ok a => exact hf a t t' halike
      | error e => exact ⟨rfl, halike⟩

theorem Oblivious.recover {x : RunM α} {handle : RunFailure → RunM α}
    (hx : Oblivious compiler x) (hhandle : ∀ failure, Oblivious compiler (handle failure)) :
    Oblivious compiler (tryCatch x handle) := by
  intro s s' h
  obtain ⟨hresult, halike⟩ := hx s s' h
  rw [run_tryCatch, run_tryCatch]
  cases hs : x.run s with
  | mk result t =>
    cases hs' : x.run s' with
    | mk result' t' =>
      rw [hs, hs'] at hresult halike
      obtain rfl : result = result' := hresult
      cases result with
      | ok a => exact ⟨rfl, halike⟩
      | error e => exact hhandle e t t' halike

/-- A step that changes and reads nothing but what was recorded is oblivious. -/
theorem Oblivious.of_recorder {x : RunM α} (step : Recorder → Except RunFailure α × Recorder)
    (hresult : ∀ s, (x.run s).1 = (step s.recorder).1)
    (hrecorder : ∀ s, (x.run s).2.recorder = (step s.recorder).2)
    (hqueries : ∀ s, (x.run s).2.worker.queries = s.worker.queries) : Oblivious compiler x := by
  intro s s' h
  refine ⟨?_, ?_, ?_, ?_⟩
  · rw [hresult, hresult, h.recorder]
  · rw [hrecorder, hrecorder, h.recorder]
  · rw [hqueries]
    exact h.left
  · rw [hqueries]
    exact h.right

/-- A question with an answer is an oblivious step. -/
theorem Oblivious.ask {question : QueryCache → Except SyntaxError α × QueryCache}
    {answer : Except SyntaxError α} (h : QueryCache.Answers compiler question answer) :
    Oblivious compiler (RunM.ask question) := by
  intro s s' hs
  obtain ⟨hanswer, hafter⟩ := h _ hs.left
  obtain ⟨hanswer', hafter'⟩ := h _ hs.right
  rw [run_ask, run_ask, hanswer, hanswer']
  exact ⟨rfl, hs.recorder, hafter, hafter'⟩

/-- A run that is put together from what its context offers is oblivious. -/
theorem Contextual.oblivious {c : RuleContext} {x : RunM α} (h : Contextual c x) :
    Oblivious c.compiler x := by
  -- A step that asks nothing is one of what was recorded; the others have their answers.
  induction h with
  | pure a => exact .of_recorder (fun r => (.ok a, r)) (fun _ => rfl) (fun _ => rfl) fun _ => rfl
  | fail e => exact .of_recorder (fun r => (.error e, r)) (fun _ => rfl) (fun _ => rfl) fun _ => rfl
  | bind _ _ ihfirst ihnext => exact ihfirst.bind ihnext
  | recover _ _ ihattempt ihhandler => exact ihattempt.recover ihhandler
  | violation title =>
    exact .of_recorder (fun r => (.ok (r.record title).1, (r.record title).2)) (fun _ => rfl)
      (fun _ => rfl) fun _ => rfl
  | setRange h a b =>
    exact .of_recorder (fun r => (.ok (), r.setRange h a b)) (fun _ => rfl) (fun _ => rfl)
      fun _ => rfl
  | recordMatches title matched =>
    exact .of_recorder
      (fun r => (.ok (r.recordMatches title matched).1, (r.recordMatches title matched).2))
      (fun _ => rfl) (fun _ => rfl) fun _ => rfl
  | recorded =>
    exact .of_recorder (fun r => (.ok r.violations, r)) (fun _ => rfl) (fun _ => rfl) fun _ => rfl
  | query l text => exact .ask (c.forest.answers_query c.compiler l text)
  | queryAll l text => exact .ask (c.forest.answers_queryAll c.compiler l text)
  | getSyntax l =>
    unfold RuleContext.getSyntax
    cases c.forest.getSyntax l with
    | ok t => exact .of_recorder (fun r => (.ok t, r)) (fun _ => rfl) (fun _ => rfl) fun _ => rfl
    | error e =>
      exact .of_recorder (fun r => (.error (.query e), r)) (fun _ => rfl) (fun _ => rfl)
        fun _ => rfl

end RunM

theorem Worker.reachable_fresh (compiler : QueryCompiler) :
    Worker.fresh.queries.Reachable compiler :=
  .empty

namespace Rule

variable {r : Rule} {tools : Toolchain} {path : Path} {bytes : Bytes} {w w' : Worker}

/-- A file that the selector has no choice for has an empty forest. -/
theorem forest_of_none (h : r.selector.selection ⟨path, bytes⟩ = none) :
    (r.forest tools path bytes).result = .ok (Forest.empty (Source.ofBytes bytes)) := by
  unfold forest
  rw [h]
  rfl

/-- A file that the selector has a choice for has the forest of the chosen chain, or none. -/
theorem forest_of_some {choice : Selection}
    (h : r.selector.selection ⟨path, bytes⟩ = some choice) :
    (r.forest tools path bytes).result =
      (ChainSpec.resolve tools.grammar bytes choice.spec).result.mapError (.chain r.name) := by
  unfold forest
  rw [h]
  rfl

/-- What the run function is given for a forest of the file. -/
def context (tools : Toolchain) (path : Path) (forest : Forest) : RuleContext :=
  ⟨path.startingAt tools.directory, forest, tools.compiler⟩

/-- The state that a run over the file starts from. -/
def start (r : Rule) (tools : Toolchain) (path : Path) (bytes : Bytes) (forest : Forest)
    (w : Worker) : RunState :=
  ⟨Recorder.empty forest.source, w.log (r.forest tools path bytes).records⟩

/-- A file without a forest is not run over. -/
theorem check_of_error {e : RuleError} (h : (r.forest tools path bytes).result = .error e)
    (w : Worker) : r.check tools path bytes w =
      (.error e, w.log (r.forest tools path bytes).records) := by
  simp only [Rule.check, h]

/-- On a forest the check gives what the run recorded, or its failure. -/
theorem check_of_ok {forest : Forest} (h : (r.forest tools path bytes).result = .ok forest)
    (w : Worker) : r.check tools path bytes w =
      match (r.run (context tools path forest)).run (r.start tools path bytes forest w) with
      | (.ok (), s) => (.ok s.recorder.violations, s.worker)
      | (.error e, s) => (.error (.run r.name e), s.worker) := by
  simp only [Rule.check, h]
  rfl

/-- Whatever its context is, the rule does nothing but what the context offers. -/
def Contextual (r : Rule) : Prop :=
  ∀ c, RunM.Contextual c (r.run c)

/-- A rule gives two workers with reachable caches the same result, and leaves a reachable one. -/
theorem Contextual.check (hr : r.Contextual) (hw : w.queries.Reachable tools.compiler)
    (hw' : w'.queries.Reachable tools.compiler) (path : Path) (bytes : Bytes) :
    (r.check tools path bytes w).1 = (r.check tools path bytes w').1 ∧
      (r.check tools path bytes w).2.queries.Reachable tools.compiler := by
  cases hforest : (r.forest tools path bytes).result with
  | error e =>
    rw [check_of_error hforest, check_of_error hforest]
    exact ⟨rfl, hw⟩
  | ok forest =>
    rw [check_of_ok hforest, check_of_ok hforest]
    have halike : RunM.Alike tools.compiler (r.start tools path bytes forest w)
        (r.start tools path bytes forest w') := ⟨rfl, hw, hw'⟩
    obtain ⟨hresult, hafter⟩ := (hr (context tools path forest)).oblivious _ _ halike
    cases hs : (r.run (context tools path forest)).run (r.start tools path bytes forest w) with
    | mk result s =>
      cases hs' : (r.run (context tools path forest)).run
          (r.start tools path bytes forest w') with
      | mk result' s' =>
        rw [hs, hs'] at hresult hafter
        obtain rfl : result = result' := hresult
        have hrecorder : s.recorder = s'.recorder := hafter.recorder
        cases result with
        | ok _ =>
          refine ⟨?_, hafter.left⟩
          show Except.ok s.recorder.violations = Except.ok s'.recorder.violations
          rw [hrecorder]
        | error e => exact ⟨rfl, hafter.left⟩

end Rule

/-- The sample grammar, with a compiler for which every query captures the item. -/
def Sample.tools : Toolchain :=
  ⟨grammar, fun _ _ => .ok ⟨["item"], [[]], fun _ => [⟨0, [(0, 1)]⟩]⟩, ⟨"/"⟩⟩

end Polyglot
