import Polyglot.Proofs.Query.Cache

/-!
# Any calls of the cache

A thread asks for queries and empties its cache as it likes. What a cache holds is kept in order by
every such call (`Kept`, `Kept.perform`): each query is the compilation of its own key, no key is held
twice, and there are no more queries than the capacity allows. So along any run of calls every answer
is what compiling the text gives without a cache (`Kept.performAll`), also behind a flush and behind
texts that did not compile. What runs leave of the empty cache are the reachable caches
(`reachable_iff`).
-/

set_option autoImplicit false

namespace Polyglot

namespace QueryCache

variable {compiler : QueryCompiler} {cache : QueryCache} {l : Language} {text : String} {q : Query}

/-! ## What is inserted -/

theorem find?_insert (cache : QueryCache) (l : Language) (text : String) (q : Query) :
    (cache.insert l text q).2.find? l text = some (cache.insert l text q).1 := by
  simp [insert, find?]

/-- A full cache holds nothing but the new query afterwards. -/
theorem keys_insert_of_full (hfull : capacity ≤ cache.size) :
    (cache.insert l text q).2.entries.map (·.1) = [(l, text)] := by
  simp [insert, hfull]

theorem keys_insert_of_room (hroom : ¬ capacity ≤ cache.size) :
    (cache.insert l text q).2.entries.map (·.1) = (l, text) :: cache.entries.map (·.1) := by
  simp [insert, hroom]

/-- What is not found is not among the keys. -/
theorem not_mem_keys_of_find?_eq_none (h : cache.find? l text = none) :
    (l, text) ∉ cache.entries.map (·.1) := by
  intro hmem
  obtain ⟨entry, hentry, hkey⟩ := List.mem_map.1 hmem
  have hother := List.lookup_eq_none_iff.1 h entry hentry
  simp [hkey] at hother

/-! ## What a call can do -/

/-- A query that is held is given out, and the cache stays as it is. -/
theorem getOrCompile_of_find? {shared : SharedQuery} (h : cache.find? l text = some shared) :
    cache.getOrCompile compiler l text = (.ok shared, cache) := by
  rw [getOrCompile, h]

theorem getOrCompile_of_error {message : String} (h : cache.find? l text = none)
    (he : compiler l text = .error message) :
    cache.getOrCompile compiler l text = (.error (.invalidQuery l message), cache) := by
  rw [getOrCompile, h]
  simp only [he]

theorem getOrCompile_of_ok (h : cache.find? l text = none) (hq : compiler l text = .ok q) :
    cache.getOrCompile compiler l text =
      (.ok (cache.insert l text q).1, (cache.insert l text q).2) := by
  rw [getOrCompile, h]
  simp only [hq]

/-! ## The invariant -/

/-- The queries that are held are the compilations of their keys, each key is held once, and the
capacity is not exceeded. -/
structure Kept (compiler : QueryCompiler) (cache : QueryCache) : Prop where
  sound : cache.Sound compiler
  keys : (cache.entries.map (·.1)).Nodup
  bounded : cache.size ≤ capacity

theorem kept_empty (compiler : QueryCompiler) : Kept compiler QueryCache.empty :=
  ⟨sound_empty, .nil, Nat.zero_le _⟩

theorem kept_clear (compiler : QueryCompiler) (cache : QueryCache) : Kept compiler cache.clear :=
  ⟨sound_clear cache, .nil, Nat.zero_le _⟩

/-- A query that was not held is added, or is the only one. -/
theorem Kept.insert (h : Kept compiler cache) (hnew : cache.find? l text = none)
    (hq : compiler l text = .ok q) : Kept compiler (cache.insert l text q).2 := by
  have hsize : ∀ c : QueryCache, c.size = (c.entries.map (·.1)).length :=
    fun c => (List.length_map _).symm
  by_cases hfull : capacity ≤ cache.size
  · refine ⟨h.sound.insert hq, ?_, ?_⟩
    · rw [keys_insert_of_full hfull]
      exact List.pairwise_singleton _ _
    · rw [hsize, keys_insert_of_full hfull, List.length_singleton]
      decide
  · refine ⟨h.sound.insert hq, ?_, ?_⟩
    · rw [keys_insert_of_room hfull]
      exact List.nodup_cons.2 ⟨not_mem_keys_of_find?_eq_none hnew, h.keys⟩
    · rw [hsize, keys_insert_of_room hfull, List.length_cons, ← hsize]
      omega

theorem Kept.getOrCompile (h : Kept compiler cache) (l : Language) (text : String) :
    Kept compiler (cache.getOrCompile compiler l text).2 := by
  cases hfound : cache.find? l text with
  | some shared =>
    rw [getOrCompile_of_find? hfound]
    exact h
  | none =>
    cases hcompiled : compiler l text with
    | error message =>
      rw [getOrCompile_of_error hfound hcompiled]
      exact h
    | ok q =>
      rw [getOrCompile_of_ok hfound hcompiled]
      exact h.insert hfound hcompiled

/-! ## Runs -/

/-- What a thread can call: it asks for the query of a text, or empties the cache. -/
inductive Call where
  | get (l : Language) (text : String)
  | clear

/-- What is answered to a call, if anything is, and the cache that it leaves. -/
def Call.perform (compiler : QueryCompiler) (cache : QueryCache) :
    Call → Option (Except SyntaxError Query) × QueryCache
  | .get l text =>
    let result := cache.getOrCompile compiler l text
    (some (result.1.map (·.query)), result.2)
  | .clear => (none, cache.clear)

/-- What is answered to a call without a cache. -/
def Call.direct (compiler : QueryCompiler) : Call → Option (Except SyntaxError Query)
  | .get l text => some (compiler.compile l text)
  | .clear => none

/-- The answers to some calls, one after the other, and the cache that they leave. -/
def performAll (compiler : QueryCompiler) :
    QueryCache → List Call → List (Option (Except SyntaxError Query)) × QueryCache
  | cache, [] => ([], cache)
  | cache, call :: rest =>
    let first := call.perform compiler cache
    let others := performAll compiler first.2 rest
    (first.1 :: others.1, others.2)

theorem performAll_append (cache : QueryCache) (calls more : List Call) :
    (performAll compiler cache (calls ++ more)).2 =
      (performAll compiler (performAll compiler cache calls).2 more).2 := by
  induction calls generalizing cache with
  | nil => rfl
  | cons call rest ih => exact ih (call.perform compiler cache).2

theorem Reachable.perform (h : Reachable compiler cache) (call : Call) :
    Reachable compiler (call.perform compiler cache).2 := by
  cases call with
  | get l text => exact h.getOrCompile l text
  | clear => exact h.clear

theorem Reachable.performAll (h : Reachable compiler cache) (calls : List Call) :
    Reachable compiler (performAll compiler cache calls).2 := by
  induction calls generalizing cache with
  | nil => exact h
  | cons call rest ih => exact ih (h.perform call)

/-- The reachable caches are those that some run leaves of the empty one. -/
theorem reachable_iff : Reachable compiler cache ↔
    ∃ calls, (performAll compiler QueryCache.empty calls).2 = cache := by
  constructor
  · intro h
    induction h with
    | empty => exact ⟨[], rfl⟩
    | clear before ih =>
      obtain ⟨calls, rfl⟩ := ih
      exact ⟨calls ++ [.clear], performAll_append _ _ _⟩
    | getOrCompile before l text ih =>
      obtain ⟨calls, rfl⟩ := ih
      exact ⟨calls ++ [.get l text], performAll_append _ _ _⟩
  · rintro ⟨calls, rfl⟩
    exact Reachable.empty.performAll calls

theorem Kept.perform (h : Kept compiler cache) (call : Call) :
    (call.perform compiler cache).1 = call.direct compiler ∧
      Kept compiler (call.perform compiler cache).2 := by
  cases call with
  | get l text =>
    exact ⟨congrArg some (h.sound.getOrCompile l text).1, h.getOrCompile l text⟩
  | clear => exact ⟨rfl, kept_clear compiler cache⟩

theorem Kept.performAll (h : Kept compiler cache) (calls : List Call) :
    (performAll compiler cache calls).1 = calls.map (Call.direct compiler) ∧
      Kept compiler (performAll compiler cache calls).2 := by
  induction calls generalizing cache with
  | nil => exact ⟨rfl, h⟩
  | cons call rest ih =>
    obtain ⟨hanswer, hkept⟩ := h.perform call
    obtain ⟨hanswers, hend⟩ := ih hkept
    refine ⟨?_, hend⟩
    rw [QueryCache.performAll, List.map_cons, hanswer, hanswers]

/-- What asking for a query does to a cache: nothing where the query is held or the text does not
compile. A query that is given out is held afterwards, alone if the cache was full and had to be
emptied for it. -/
structure Settles (compiler : QueryCompiler) (cache : QueryCache) (l : Language) (text : String) :
    Prop where
  held : ∀ shared, cache.find? l text = some shared →
    cache.getOrCompile compiler l text = (.ok shared, cache)
  failed : ∀ e, compiler.compile l text = .error e →
    cache.getOrCompile compiler l text = (.error e, cache)
  cached : ∀ shared, (cache.getOrCompile compiler l text).1 = .ok shared →
    (cache.getOrCompile compiler l text).2.find? l text = some shared
  flushed : ∀ q, compiler.compile l text = .ok q → cache.find? l text = none →
    capacity ≤ cache.size →
    (cache.getOrCompile compiler l text).2.entries.map (·.1) = [(l, text)]

theorem Sound.find?_eq_none_of_error (h : cache.Sound compiler) {message : String}
    (he : compiler l text = .error message) : cache.find? l text = none := by
  cases hfound : cache.find? l text with
  | none => rfl
  | some shared =>
    rw [h.query_of_find? hfound] at he
    cases he

/-- A query that is given out is held afterwards. -/
theorem find?_of_getOrCompile {shared : SharedQuery}
    (h : (cache.getOrCompile compiler l text).1 = .ok shared) :
    (cache.getOrCompile compiler l text).2.find? l text = some shared := by
  cases hfound : cache.find? l text with
  | some held =>
    rw [getOrCompile_of_find? hfound] at h ⊢
    rw [hfound, Except.ok.inj h]
  | none =>
    cases hcompiled : compiler l text with
    | error message =>
      rw [getOrCompile_of_error hfound hcompiled] at h
      cases h
    | ok q =>
      rw [getOrCompile_of_ok hfound hcompiled] at h ⊢
      rw [find?_insert, Except.ok.inj h]

theorem Kept.settles (h : Kept compiler cache) (l : Language) (text : String) :
    Settles compiler cache l text :=
  { held := fun _ hfound => getOrCompile_of_find? hfound
    failed := by
      intro e he
      obtain ⟨message, hmessage, rfl⟩ := QueryCompiler.error_of_compile he
      exact getOrCompile_of_error (h.sound.find?_eq_none_of_error hmessage) hmessage
    cached := fun _ hok => find?_of_getOrCompile hok
    flushed := by
      intro q hq hnew hfull
      rw [getOrCompile_of_ok hnew (QueryCompiler.ok_of_compile hq)]
      exact keys_insert_of_full hfull }

/-- Nobody can tell a cache from none, and it does not grow: whatever a thread has called before, the
answers are what compiling the texts gives, each query held is the compilation of its own key, and
there are at most as many as the capacity. The next text that compiles is held afterwards, and one
that does not leaves the cache as it was. -/
theorem performAll_transparent (compiler : QueryCompiler) (calls : List Call) :
    (performAll compiler QueryCache.empty calls).1 = calls.map (Call.direct compiler) ∧
    Kept compiler (performAll compiler QueryCache.empty calls).2 ∧
    ∀ l text, Settles compiler (performAll compiler QueryCache.empty calls).2 l text := by
  obtain ⟨hanswers, hkept⟩ := (kept_empty compiler).performAll calls
  exact ⟨hanswers, hkept, hkept.settles⟩

end QueryCache

end Polyglot
