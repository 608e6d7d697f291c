import Polyglot.Forest

/-!
# Caches that nobody can see

What a cache can hold after any calls (`Reachable`) is sound: every query in it is what its own
text compiles to for its own language (`Reachable.sound`). So a query that comes through a cache,
emptied or not, is the one that its text compiles to (`Sound.getOrCompile`), and a question that
begins with it is answered: it gives one and the same answer on every reachable cache and leaves a
reachable one (`Forest.answers_query`, `Forest.answers_queryAll`).
-/

set_option autoImplicit false

namespace Polyglot

/-- What a text compiles to without a cache. -/
def QueryCompiler.compile (compiler : QueryCompiler) (l : Language) (text : String) :
    Except SyntaxError Query :=
  (compiler l text).mapError (.invalidQuery l)

namespace QueryCompiler

variable {compiler : QueryCompiler} {l : Language} {text : String} {q : Query}

theorem compile_of_ok (h : compiler l text = .ok q) : compiler.compile l text = .ok q := by
  rw [compile, h]
  rfl

theorem compile_of_error {message : String} (h : compiler l text = .error message) :
    compiler.compile l text = .error (.invalidQuery l message) := by
  rw [compile, h]
  rfl

theorem ok_of_compile (h : compiler.compile l text = .ok q) : compiler l text = .ok q := by
  cases hcompiled : compiler l text with
  | error message =>
    rw [compile_of_error hcompiled] at h
    cases h
  | ok q' =>
    rw [compile_of_ok hcompiled] at h
    rw [Except.ok.inj h]

theorem error_of_compile {e : SyntaxError} (h : compiler.compile l text = .error e) :
    ∃ message, compiler l text = .error message ∧ e = .invalidQuery l message := by
  cases hcompiled : compiler l text with
  | error message =>
    rw [compile_of_error hcompiled] at h
    exact ⟨message, rfl, (Except.error.inj h).symm⟩
  | ok q' =>
    rw [compile_of_ok hcompiled] at h
    cases h

end QueryCompiler

namespace QueryCache

/-- The caches that come of the empty one by any calls. -/
inductive Reachable (compiler : QueryCompiler) : QueryCache → Prop where
  | empty : Reachable compiler QueryCache.empty
  | clear {cache : QueryCache} (before : Reachable compiler cache) :
      Reachable compiler cache.clear
  | getOrCompile {cache : QueryCache} (before : Reachable compiler cache) (l : Language)
      (text : String) : Reachable compiler (cache.getOrCompile compiler l text).2

/-- Every query that is held is what its text compiles to for its language. -/
def Sound (compiler : QueryCompiler) (cache : QueryCache) : Prop :=
  ∀ entry ∈ cache.entries, compiler entry.1.1 entry.1.2 = .ok entry.2.query

/-- A question gives this answer on every reachable cache, and leaves a reachable one. -/
def Answers {α : Type} (compiler : QueryCompiler)
    (question : QueryCache → Except SyntaxError α × QueryCache) (answer : Except SyntaxError α) :
    Prop :=
  ∀ cache, cache.Reachable compiler →
    (question cache).1 = answer ∧ (question cache).2.Reachable compiler

variable {compiler : QueryCompiler} {cache : QueryCache} {l : Language} {text : String}

theorem sound_empty : Sound compiler QueryCache.empty := nofun

theorem sound_clear (cache : QueryCache) : cache.clear.Sound compiler := nofun

theorem Sound.query_of_find? (h : cache.Sound compiler) {shared : SharedQuery}
    (hfound : cache.find? l text = some shared) : compiler l text = .ok shared.query := by
  obtain ⟨before, behind, hentries, -⟩ := List.lookup_eq_some_iff.1 hfound
  apply h ((l, text), shared)
  rw [hentries]
  exact List.mem_append_right _ List.mem_cons_self

/-- A fresh query under its own key keeps a cache sound, whether the cache was full or not. -/
theorem Sound.insert (h : cache.Sound compiler) {q : Query} (hq : compiler l text = .ok q) :
    (cache.insert l text q).2.Sound compiler := by
  refine List.forall_mem_cons.2 ⟨hq, ?_⟩
  split
  · exact nofun
  · exact h

/-- Through a sound cache a text gives the query it compiles to or fails as it does. -/
theorem Sound.getOrCompile (h : cache.Sound compiler) (l : Language) (text : String) :
    (cache.getOrCompile compiler l text).1.map (·.query) = compiler.compile l text ∧
      (cache.getOrCompile compiler l text).2.Sound compiler := by
  unfold QueryCache.getOrCompile QueryCompiler.compile
  split
  · next shared hfound =>
    rw [h.query_of_find? hfound]
    exact ⟨rfl, h⟩
  · split
    · next message hmessage =>
      rw [hmessage]
      exact ⟨rfl, h⟩
    · next q hq =>
      rw [hq]
      exact ⟨rfl, h.insert hq⟩

/-- What calls make of the empty cache is sound. -/
theorem Reachable.sound (h : Reachable compiler cache) : cache.Sound compiler := by
  induction h with
  | empty => exact sound_empty
  | clear before => exact sound_clear _
  | getOrCompile before l text ih => exact (ih.getOrCompile l text).2

end QueryCache

namespace Forest

open QueryCache

variable (f : Forest) (compiler : QueryCompiler) (l : Language) (text : String)

theorem answers_query : Answers compiler (f.query compiler l text)
    ((compiler.compile l text).bind fun q => (f.getSyntax l).bind (QueryEngine.findAll ⟨l, q⟩)) := by
  intro cache h
  have hafter := h.getOrCompile l text
  rw [← (h.sound.getOrCompile l text).1]
  unfold query
  cases hresult : cache.getOrCompile compiler l text with
  | mk result after =>
    rw [hresult] at hafter
    cases result with
    | error e => exact ⟨rfl, hafter⟩
    | ok shared =>
      cases f.getSyntax l with
      | error e => exact ⟨rfl, hafter⟩
      | ok t => exact ⟨rfl, hafter⟩

theorem answers_queryAll : Answers compiler (f.queryAll compiler l text)
    ((compiler.compile l text).bind fun q => findInAll ⟨l, q⟩ (f.trees l)) := by
  intro cache h
  have hafter := h.getOrCompile l text
  rw [← (h.sound.getOrCompile l text).1]
  unfold queryAll
  cases hresult : cache.getOrCompile compiler l text with
  | mk result after =>
    rw [hresult] at hafter
    cases result with
    | error e => exact ⟨rfl, hafter⟩
    | ok shared => exact ⟨rfl, hafter⟩

/-- In trees of its own language a query finds the matches of each, tree after tree. -/
theorem findInAll_of_language {e : QueryEngine} {trees : List SyntaxTree}
    (h : ∀ t ∈ trees, t.language = e.language) :
    findInAll e trees = .ok (trees.flatMap e.query.results) := by
  induction trees with
  | nil => rfl
  | cons t rest ih =>
    obtain ⟨ht, hrest⟩ := List.forall_mem_cons.1 h
    simp only [findInAll, QueryEngine.findAll, ht, if_true, ih hrest]
    rfl

end Forest

end Polyglot
