import Polyglot.Engine
import Polyglot.Proofs.Rule.Runs

/-!
# Outcomes that each rule has for itself

Where the rules do nothing but what their contexts offer, the outcome of a rule for a file is what
the rule alone gives for it to a worker that has done nothing yet (`outcome`). No worker, no rule
before it, whether that one fails or not, and no file before this one makes a difference
(`checkSource_eq`, `checkEach_eq`), so the files can be shared out among threads in any way
(`takeTurns_eq`). The reports stand in the order of the files (`map_collected`), and their counts tell
whether they are clean (`Report.isClean_iff`).
-/

set_option autoImplicit false

namespace Polyglot

/-! ## Counts -/

theorem foldr_add_eq_zero_iff {α : Type} {count : α → Nat} {l : List α} :
    l.foldr (fun a n => count a + n) 0 = 0 ↔ ∀ a ∈ l, count a = 0 := by
  induction l with
  | nil => simp
  | cons a l ih => simp [ih]

/-- A rule fails on a file when it found something or has an error. -/
theorem RuleOutcome.isFailed_eq_false_iff {o : RuleOutcome} :
    o.isFailed = false ↔ o.violations.length = 0 ∧ o.error.isSome = false := by
  simp [isFailed, and_comm]

/-- A file fails when something is counted in it. -/
theorem FileReport.isFailed_eq_false_iff {r : FileReport} :
    r.isFailed = false ↔ r.violationCount = 0 ∧ r.errorCount = 0 := by
  unfold isFailed violationCount errorCount
  rw [Bool.or_eq_false_iff, List.any_eq_false, foldr_add_eq_zero_iff, Nat.add_eq_zero_iff,
    List.countP_eq_zero]
  simp only [Bool.not_eq_true, RuleOutcome.isFailed_eq_false_iff]
  cases r.error <;> simp [forall_and]

/-- A report is clean when nothing is counted in it. -/
theorem Report.isClean_iff {r : Report} :
    r.isClean = true ↔ r.violationCount = 0 ∧ r.errorCount = 0 := by
  unfold isClean failedFiles violationCount errorCount
  rw [foldr_add_eq_zero_iff, foldr_add_eq_zero_iff, ← forall₂_and, List.isEmpty_iff,
    List.filter_eq_nil_iff]
  simp only [Bool.not_eq_true, FileReport.isFailed_eq_false_iff]

theorem Report.exitCode_eq_zero_iff {r : Report} : r.exitCode = 0 ↔ r.isClean = true := by
  unfold exitCode
  split <;> simp [*]

namespace Engine

variable {e : Engine} {tools : Toolchain} {w : Worker}

/-- The engine with no rule but one. -/
def alone (e : Engine) (r : Rule) : Engine :=
  { e with rules := [r] }

/-- The outcome of a rule for a worker that has done nothing yet. -/
def outcome (tools : Toolchain) (path : Path) (bytes : Bytes) (r : Rule) : RuleOutcome :=
  outcomeOf r.name (r.check tools path bytes Worker.fresh).1

/-! ## Rules -/

theorem rule_outcomeOf (rule : String) (result : Except RuleError (List Violation)) :
    (outcomeOf rule result).rule = rule := by
  cases result <;> rfl

theorem violations_outcomeOf {rule : String} {result : Except RuleError (List Violation)}
    (h : (outcomeOf rule result).error.isSome = true) : (outcomeOf rule result).violations = [] := by
  cases result with
  | ok violations => cases h
  | error e => rfl

/-- The worker after a rule, with the warning about it. -/
def afterRule (tools : Toolchain) (path : Path) (bytes : Bytes) (r : Rule) (w : Worker) : Worker :=
  (r.check tools path bytes w).2.log (warnings path (r.check tools path bytes w).1)

theorem runAll_cons (path : Path) (bytes : Bytes) (r : Rule) (rest : List Rule) :
    runAll tools path bytes (r :: rest) w =
      (outcomeOf r.name (r.check tools path bytes w).1 ::
          (runAll tools path bytes rest (afterRule tools path bytes r w)).1,
        (runAll tools path bytes rest (afterRule tools path bytes r w)).2) := rfl

/-- Rule by rule the worker's cache changes, but it stays reachable, and that is all that a rule
can see of it. -/
theorem runAll_eq {rules : List Rule} (hrules : ∀ r ∈ rules, r.Contextual)
    (hw : w.queries.Reachable tools.compiler) (path : Path) (bytes : Bytes) :
    (runAll tools path bytes rules w).1 = rules.map (outcome tools path bytes) ∧
      (runAll tools path bytes rules w).2.queries.Reachable tools.compiler := by
  -- The worker is generalised: behind the first rule it is another one.
  induction rules generalizing w with
  | nil => exact ⟨rfl, hw⟩
  | cons r rest ih =>
    obtain ⟨hr, hrest⟩ := List.forall_mem_cons.1 hrules
    obtain ⟨hcheck, hafter⟩ := hr.check hw (Worker.reachable_fresh _) path bytes
    obtain ⟨hmore, hend⟩ := ih hrest (w := afterRule tools path bytes r w) hafter
    rw [runAll_cons]
    refine ⟨?_, hend⟩
    rw [hmore, hcheck]
    rfl

/-- The report on a buffer lists what each rule gives for itself. -/
theorem checkSource_eq (hrules : ∀ r ∈ e.rules, r.Contextual)
    (hw : w.queries.Reachable e.tools.compiler) (path : Path) (bytes : Bytes) :
    (e.checkSource path bytes w).1 = ⟨path, e.rules.map (outcome e.tools path bytes), none⟩ ∧
      (e.checkSource path bytes w).2.queries.Reachable e.tools.compiler := by
  obtain ⟨houtcomes, hafter⟩ := runAll_eq hrules hw path bytes
  refine ⟨?_, hafter⟩
  show FileReport.mk path (runAll e.tools path bytes e.rules w).1 none = _
  rw [houtcomes]

/-! ## Files -/

/-- No report on a file tells which worker made it. -/
theorem checkFile_eq (hrules : ∀ r ∈ e.rules, r.Contextual)
    (hw : w.queries.Reachable e.tools.compiler) (files : Files) (path : Path) :
    (e.checkFile files path w).1 = (e.checkFile files path Worker.fresh).1 ∧
      (e.checkFile files path w).2.queries.Reachable e.tools.compiler := by
  unfold checkFile
  cases files.read path with
  | error cause => exact ⟨rfl, hw⟩
  | ok bytes =>
    obtain ⟨hreport, hafter⟩ := checkSource_eq hrules hw path bytes
    obtain ⟨hfresh, -⟩ := checkSource_eq hrules (Worker.reachable_fresh _) path bytes
    exact ⟨hreport.trans hfresh.symm, hafter⟩

theorem checkEach_cons (files : Files) (path : Path) (rest : List Path) :
    (e.checkEach files (path :: rest) w).1 =
      (e.checkFile files path w).1 :: (e.checkEach files rest (e.checkFile files path w).2).1 := rfl

/-- One file after the other is as good as each for itself. -/
theorem checkEach_eq (hrules : ∀ r ∈ e.rules, r.Contextual)
    (hw : w.queries.Reachable e.tools.compiler) (files : Files) (paths : List Path) :
    (e.checkEach files paths w).1 =
        paths.map (fun path => (e.checkFile files path Worker.fresh).1) ∧
      (e.checkEach files paths w).2.queries.Reachable e.tools.compiler := by
  induction paths generalizing w with
  | nil => exact ⟨rfl, hw⟩
  | cons path rest ih =>
    obtain ⟨hreport, hafter⟩ := checkFile_eq hrules hw files path
    obtain ⟨hmore, hend⟩ := ih hafter
    refine ⟨?_, hend⟩
    rw [checkEach_cons, hreport, hmore]
    rfl

theorem path_checkFile (files : Files) (path : Path) (w : Worker) :
    (e.checkFile files path w).1.path = path := by
  unfold checkFile
  cases files.read path <;> rfl

theorem paths_checkEach (files : Files) (paths : List Path) (w : Worker) :
    (e.checkEach files paths w).1.map (·.path) = paths := by
  induction paths generalizing w with
  | nil => rfl
  | cons path rest ih =>
    rw [checkEach_cons, List.map_cons, path_checkFile, ih]

/-! ## Turns -/

section Turns

variable (files : Files) {paths : List Path} {threads : Nat}

theorem takeTurns_cons (i : Fin paths.length) (t : Fin threads)
    (rest : List (Fin paths.length × Fin threads)) (workers : Vector Worker threads) :
    e.takeTurns files paths ((i, t) :: rest) workers =
      (i, (e.checkFile files (paths.get i) (workers.get t)).1) :: e.takeTurns files paths rest
        (workers.set t (e.checkFile files (paths.get i) (workers.get t)).2 t.isLt) := rfl

/-- Turn by turn one thread's worker changes, but it stays reachable, so no report tells which thread
made it. -/
theorem takeTurns_eq (hrules : ∀ r ∈ e.rules, r.Contextual)
    (turns : List (Fin paths.length × Fin threads)) {workers : Vector Worker threads}
    (hworkers : ∀ t, (workers.get t).queries.Reachable e.tools.compiler) :
    e.takeTurns files paths turns workers =
      turns.map fun turn => (turn.1, (e.checkFile files (paths.get turn.1) Worker.fresh).1) := by
  induction turns generalizing workers with
  | nil => rfl
  | cons turn rest ih =>
    obtain ⟨i, t⟩ := turn
    obtain ⟨hreport, hafter⟩ := checkFile_eq hrules (hworkers t) files (paths.get i)
    rw [takeTurns_cons, hreport, List.map_cons]
    generalize (e.checkFile files (paths.get i) (workers.get t)).2 = w at hafter ⊢
    rw [ih fun u => ?_]
    have hget : (workers.set t w t.isLt).get u = if t.val = u.val then w else workers.get u :=
      Vector.getElem_set t.isLt u.isLt
    rw [hget]
    split
    · exact hafter
    · exact hworkers u

theorem paths_takeTurns (turns : List (Fin paths.length × Fin threads))
    (workers : Vector Worker threads) :
    (e.takeTurns files paths turns workers).map (fun report => (report.1, report.2.path)) =
      turns.map fun turn => (turn.1, paths.get turn.1) := by
  induction turns generalizing workers with
  | nil => rfl
  | cons turn rest ih => rw [takeTurns_cons, List.map_cons, List.map_cons, ih, path_checkFile]

theorem exists_lookup {α : Type} {n : Nat} {made : List (Fin n × α)} {i : Fin n}
    (h : i ∈ made.map (·.1)) : ∃ a, made.lookup i = some a ∧ (i, a) ∈ made := by
  obtain ⟨m, hm, rfl⟩ := List.mem_map.1 h
  have hsome : (made.lookup m.1).isSome = true := List.lookup_isSome_iff.2 ⟨m, hm, by simp⟩
  obtain ⟨a, ha⟩ := Option.isSome_iff_exists.1 hsome
  obtain ⟨before, after, hsplit, -⟩ := List.lookup_eq_some_iff.1 ha
  exact ⟨a, ha, by rw [hsplit]; simp⟩

/-- What is made once for every number is collected in the order of the numbers. -/
theorem map_collected {α β : Type} {n : Nat} {made : List (Fin n × α)} {g : α → β} {f : Fin n → β}
    {turns : List (Fin n × Fin threads)} (once : (turns.map (·.1)).Perm (List.finRange n))
    (h : made.map (fun m => (m.1, g m.2)) = turns.map fun turn => (turn.1, f turn.1)) :
    ((List.finRange n).filterMap fun i => made.lookup i).map g = (List.finRange n).map f := by
  have hnumbers : made.map (·.1) = turns.map (·.1) := by
    simpa [Function.comp_def] using congrArg (List.map Prod.fst) h
  have hfound : ∀ i, (made.lookup i).map g = some (f i) := by
    intro i
    have hi : i ∈ made.map (·.1) := by
      rw [hnumbers]
      exact once.mem_iff.2 (List.mem_finRange i)
    obtain ⟨a, ha, hmade⟩ := exists_lookup hi
    have hvalue : (i, g a) ∈ turns.map fun turn => (turn.1, f turn.1) := by
      rw [← h]
      exact List.mem_map_of_mem hmade
    obtain ⟨turn, -, hturn⟩ := List.mem_map.1 hvalue
    obtain ⟨rfl, heq⟩ := Prod.mk.inj hturn
    rw [ha, Option.map_some, heq]
  rw [List.map_filterMap, funext hfound]
  exact congrFun List.filterMap_eq_map _

theorem map_numbers {α β : Type} (l : List α) (f : α → β) :
    (List.finRange l.length).map (fun i => f (l.get i)) = l.map f := by
  apply List.ext_getElem <;> simp

theorem checkShared_eq (hrules : ∀ r ∈ e.rules, r.Contextual)
    (s : Schedule threads paths.length) :
    e.checkShared files paths s =
      paths.map fun path => (e.checkFile files path Worker.fresh).1 := by
  have hfresh : ∀ t : Fin threads,
      ((Vector.replicate threads Worker.fresh).get t).queries.Reachable e.tools.compiler := by
    intro t
    have hget : (Vector.replicate threads Worker.fresh).get t = Worker.fresh :=
      Vector.getElem_replicate t.isLt
    rw [hget]
    exact Worker.reachable_fresh _
  have hmade := takeTurns_eq files hrules s.turns hfresh
  have hreports := map_collected (g := id)
    (f := fun i => (e.checkFile files (paths.get i) Worker.fresh).1) s.once
    ((List.map_id _).trans hmade)
  rw [List.map_id] at hreports
  exact hreports.trans (map_numbers paths fun path => (e.checkFile files path Worker.fresh).1)

theorem paths_checkShared (s : Schedule threads paths.length) :
    (e.checkShared files paths s).map (·.path) = paths := by
  rw [checkShared, map_collected s.once (paths_takeTurns files s.turns _)]
  exact (map_numbers paths id).trans (List.map_id paths)

end Turns

/-! ## The report -/

/-- A report comes from threads that shared out the files, or from one worker that took them in turn,
with a warning perhaps. -/
theorem checkFiles_cases (e : Engine) (pool : Pool) (files : Files) (paths : List Path)
    (w : Worker) :
    (∃ (threads : Nat) (s : Schedule threads paths.length),
      e.checkFiles pool files paths w = (⟨e.checkShared files paths s⟩, w)) ∨
    ∃ records, e.checkFiles pool files paths w =
      (⟨(e.checkEach files paths (w.log records)).1⟩,
        (e.checkEach files paths (w.log records)).2) := by
  unfold checkFiles
  split
  · split
    · next share _ => exact .inl ⟨_, share paths.length, rfl⟩
    · exact .inr ⟨_, rfl⟩
  · refine .inr ⟨[], ?_⟩
    simp only [Worker.log, List.append_nil]

/-- Whoever checks the files, the report lists what each of them gives for itself. -/
theorem checkFiles_eq (hrules : ∀ r ∈ e.rules, r.Contextual)
    (hw : w.queries.Reachable e.tools.compiler) (pool : Pool) (files : Files) (paths : List Path) :
    (e.checkFiles pool files paths w).1.files =
        paths.map (fun path => (e.checkFile files path Worker.fresh).1) ∧
      (e.checkFiles pool files paths w).2.queries.Reachable e.tools.compiler := by
  rcases checkFiles_cases e pool files paths w with ⟨threads, s, h⟩ | ⟨records, h⟩
  · rw [h]
    exact ⟨checkShared_eq files hrules s, hw⟩
  · rw [h]
    exact checkEach_eq hrules (w := w.log records) hw files paths

theorem paths_checkFiles (pool : Pool) (files : Files) (paths : List Path) (w : Worker) :
    (e.checkFiles pool files paths w).1.files.map (·.path) = paths := by
  rcases checkFiles_cases e pool files paths w with ⟨threads, s, h⟩ | ⟨records, h⟩
  · rw [h]
    exact paths_checkShared files s
  · rw [h]
    exact paths_checkEach files paths _

/-- Rules that do nothing but what their contexts offer do not see each other, nor what the worker
did before: an outcome is that of the rule alone, for a worker that has done nothing yet. Which
worker checks which file makes no difference, whatever pool shares them out, and the report on them
is in their order and clean when nothing is counted. The report on a file is that on its bytes, or
says why it cannot be read. -/
theorem outcomes_alone (e : Engine) (hrules : ∀ r ∈ e.rules, r.Contextual) :
    (∀ (path : Path) (bytes : Bytes) (w : Worker), w.queries.Reachable e.tools.compiler →
      (e.checkSource path bytes w).2.queries.Reachable e.tools.compiler ∧
      (e.checkSource path bytes w).1.outcomes.map (·.rule) = e.rules.map (·.name) ∧
      ∀ (i : Nat) (r : Rule), e.rules[i]? = some r →
        ∃ o, (e.checkSource path bytes w).1.outcomes[i]? = some o ∧
          ((e.alone r).checkSource path bytes Worker.fresh).1.outcomes = [o] ∧
          (o.error.isSome = true → o.violations = [])) ∧
    (∀ (pool : Pool) (files : Files) (work : List (Path × Worker)) (w : Worker),
      w.queries.Reachable e.tools.compiler →
      (∀ p ∈ work, p.2.queries.Reachable e.tools.compiler) →
      (e.checkFiles pool files (work.map (·.1)) w).1.files =
          work.map (fun p => (e.checkFile files p.1 p.2).1) ∧
        (e.checkFiles pool files (work.map (·.1)) w).2.queries.Reachable e.tools.compiler) ∧
    (∀ (files : Files) (path : Path) (w : Worker),
      (∀ bytes, files.read path = .ok bytes →
        e.checkFile files path w = e.checkSource path bytes w) ∧
      ∀ cause, files.read path = .error cause →
        e.checkFile files path w = (⟨path, [], some (.unreadable path cause)⟩, w)) ∧
    ∀ (pool : Pool) (files : Files) (paths : List Path) (w : Worker),
      (e.checkFiles pool files paths w).1.files.map (·.path) = paths ∧
      ((e.checkFiles pool files paths w).1.isClean = true ↔
        (e.checkFiles pool files paths w).1.violationCount = 0 ∧
          (e.checkFiles pool files paths w).1.errorCount = 0) ∧
      ((e.checkFiles pool files paths w).1.exitCode = 0 ↔
        (e.checkFiles pool files paths w).1.isClean = true) := by
  refine ⟨?_, ?_, ?_, ?_⟩
  · intro path bytes w hw
    obtain ⟨hreport, hafter⟩ := checkSource_eq hrules hw path bytes
    refine ⟨hafter, ?_, ?_⟩
    · rw [hreport]
      simp only [List.map_map]
      exact List.map_congr_left fun r _ => rule_outcomeOf r.name _
    · intro i r hi
      have halone : ∀ s ∈ (e.alone r).rules, s.Contextual := by
        intro s hs
        rw [List.mem_singleton.1 hs]
        exact hrules r (List.mem_of_getElem? hi)
      obtain ⟨hlone, -⟩ := checkSource_eq halone (Worker.reachable_fresh _) path bytes
      refine ⟨outcome e.tools path bytes r, ?_, ?_, violations_outcomeOf⟩
      · rw [hreport]
        simp only [List.getElem?_map, hi, Option.map_some]
      · rw [hlone]
        rfl
  · intro pool files work w hw hwork
    obtain ⟨hreports, hafter⟩ := checkFiles_eq hrules hw pool files (work.map (·.1))
    refine ⟨?_, hafter⟩
    rw [hreports, List.map_map]
    exact List.map_congr_left fun p hp => (checkFile_eq hrules (hwork p hp) files p.1).1.symm
  · intro files path w
    constructor
    · intro bytes hread
      rw [checkFile, hread]
    · intro cause hread
      rw [checkFile, hread]
  · intro pool files paths w
    exact ⟨paths_checkFiles pool files paths w, Report.isClean_iff, Report.exitCode_eq_zero_iff⟩

end Engine

namespace Sample

/-- Records a violation and fails, which drops it. -/
def failing : Rule :=
  ⟨"failing", none, .fixed .javaScript, fun _ => do
    let _ ← RunM.violation "dropped"
    throw (.custom "failed")⟩

/-- Reports every item. -/
def asking : Rule :=
  ⟨"asking", none, .fixed .javaScript, fun c => do
    let found ← c.queryAll .javaScript "(item) @item"
    let _ ← RunM.recordMatches "item" found⟩

/-- A rule that fails before one that asks. -/
def engine : Engine :=
  ⟨[failing, asking], EngineSettings.standard, tools⟩

/-- A worker that asked the query already, but whose cache was emptied since. -/
def busy : Worker :=
  ⟨((QueryCache.empty.getOrCompile tools.compiler .javaScript "(item) @item").2.clear.getOrCompile
    tools.compiler .css "(item) @item").2, []⟩

theorem contextual_engine : ∀ r ∈ engine.rules, r.Contextual := by
  have hfailing : failing.Contextual :=
    fun c => .bind (.violation "dropped") fun _ => .fail (.custom "failed")
  have hasking : asking.Contextual :=
    fun c => .bind (.queryAll .javaScript "(item) @item") fun found =>
      .bind (.recordMatches "item" found) fun _ => .pure ()
  intro r hr
  rcases List.mem_cons.1 hr with rfl | hr
  · exact hfailing
  · rw [List.mem_singleton.1 hr]
    exact hasking

theorem reachable_busy : busy.queries.Reachable tools.compiler :=
  .getOrCompile (.clear (.getOrCompile .empty .javaScript "(item) @item")) .css "(item) @item"

end Sample

namespace Engine

/-- Beside a rule that fails, the other one reports the item as if it stood alone. -/
theorem outcomes_beside_failure :
    (∀ r ∈ Sample.engine.rules, r.Contextual) ∧
    Sample.busy.queries.Reachable Sample.engine.tools.compiler ∧
    (Sample.engine.checkSource ⟨"a.js"⟩ (Bytes.ofString "ab") Sample.busy).1.outcomes[0]? =
      some ⟨"failing", [], some (.run "failing" (.custom "failed"))⟩ ∧
    ∃ o, ((Sample.engine.alone Sample.asking).checkSource ⟨"a.js"⟩ (Bytes.ofString "ab")
        Worker.fresh).1.outcomes = [o] ∧
      (Sample.engine.checkSource ⟨"a.js"⟩ (Bytes.ofString "ab") Sample.busy).1.outcomes[1]? =
        some o ∧
      o.violations.length = 1 := by
  refine ⟨Sample.contextual_engine, Sample.reachable_busy, by decide +kernel, ?_⟩
  obtain ⟨-, -, houtcome⟩ := (outcomes_alone Sample.engine Sample.contextual_engine).1 ⟨"a.js"⟩
    (Bytes.ofString "ab") Sample.busy Sample.reachable_busy
  obtain ⟨o, ho, halone, -⟩ := houtcome 1 Sample.asking rfl
  refine ⟨o, halone, ho, ?_⟩
  have hone : ((Sample.engine.alone Sample.asking).checkSource ⟨"a.js"⟩ (Bytes.ofString "ab")
      Worker.fresh).1.outcomes.map (·.violations.length) = [1] := by decide +kernel
  rw [halone] at hone
  exact List.head_eq_of_cons_eq hone

end Engine

end Polyglot
