import Polyglot.Proofs.Config.NameSearch
import Polyglot.Proofs.Config.References

/-!
# The search for cycles

What a search ends with is right: it says that there is no cycle below a name, or shows a closed
path (`run_start`). The proof follows the search step by step. `Search.Sound` is the invariant: the
names that are done are closed under references and lie on no cycle, the way is a path of distinct
names none of which is done, and of each chain on the way every reference is pending, done, or a
chain further on. `Sound.step` keeps it, `exists_last` runs it to the end of a search, and what a
search ends with is read off the last state.
-/

set_option autoImplicit false

namespace Polyglot

/-! ## Searches that end -/

section Runs

variable {σ α : Type} {step : σ → Move σ α} {work : σ → Nat} {s next : σ}
  (less : ∀ s next, step s = .on next → work next < work s)

theorem Move.run_of_on (h : step s = .on next) :
    run step work less s = run step work less next := by
  rw [run]
  split
  · next t ht =>
    rw [h] at ht
    rw [Move.on.inj ht]
  · next v hv =>
    rw [h] at hv
    cases hv

theorem Move.run_of_stop {v : Verdict α} (h : step s = .stop v) : run step work less s = v := by
  rw [run]
  split
  · next t ht =>
    rw [h] at ht
    cases ht
  · next v' hv =>
    rw [h] at hv
    exact (Move.stop.inj hv).symm

/-- A search whose steps leave less work comes to a last state in finitely many steps, and the verdict
is what that state gives. -/
theorem Move.exists_last (s : σ) :
    ∃ last, Relation.ReflTransGen (fun s next => step s = .on next) s last ∧
      step last = .stop (run step work less s) := by
  -- The induction is on the work that is left.
  generalize hn : work s = n
  induction n using Nat.strongRecOn generalizing s with
  | ind n ih =>
    cases h : step s with
    | on next =>
      obtain ⟨last, hsteps, hlast⟩ := ih (work next) (hn ▸ less s next h) next rfl
      rw [← run_of_on less h] at hlast
      exact ⟨last, .head h hsteps, hlast⟩
    | stop v => exact ⟨s, .refl, by rw [h, run_of_stop less h]⟩

end Runs

namespace Search

variable {definitions : List ChainDefinition} {s next : Search}

/-- One step of a search that goes on. -/
def Next (definitions : List ChainDefinition) (s next : Search) : Prop :=
  s.step definitions = .on next

/-! ## Runs -/

/-- Every search comes to its last state in finitely many steps, and the verdict is what that state
gives. -/
theorem exists_last (definitions : List ChainDefinition) (s : Search) :
    ∃ last, Relation.ReflTransGen (Next definitions) s last ∧
      last.step definitions = .stop (s.run definitions) :=
  Move.exists_last _ s

/-- What every step of a search keeps, its last state has. -/
theorem exists_last_of_inv (Inv : Search → Prop)
    (step : ∀ s next, Inv s → Goes definitions s next → Inv next) (hs : Inv s) :
    ∃ last, Inv last ∧ last.step definitions = .stop (s.run definitions) := by
  obtain ⟨last, hsteps, hlast⟩ := exists_last definitions s
  refine ⟨last, ?_, hlast⟩
  clear hlast
  induction hsteps with
  | refl => exact hs
  | tail _ hstep ih => exact step _ _ ih (goes_of_step hstep)

/-! ## The invariant -/

/-- Of each chain on a way, every reference is pending or `seen`, and to the chains further back the
chain itself is seen. -/
def Way (definitions : List ChainDefinition) : List String → List Frame → Prop
  | _, [] => True
  | seen, f :: behind =>
    (∀ child, Refers definitions f.name child → child ∈ f.pending ∨ child ∈ seen) ∧
      Way definitions (f.name :: seen) behind

theorem Way.mono {seen seen' : List String} {way : List Frame} (h : Way definitions seen way)
    (hle : ∀ name ∈ seen, name ∈ seen') : Way definitions seen' way := by
  induction way generalizing seen seen' with
  | nil => trivial
  | cons f behind ih =>
    obtain ⟨hf, hbehind⟩ := h
    refine ⟨fun child hchild => (hf child hchild).imp_right (hle child), ih hbehind ?_⟩
    intro name hname
    rcases List.mem_cons.1 hname with rfl | hname
    · exact List.mem_cons_self
    · exact List.mem_cons_of_mem _ (hle name hname)

/-- Names that are closed under references, and none of which lies on a cycle. -/
structure Clear (definitions : List ChainDefinition) (names : List String) : Prop where
  closed : ∀ name ∈ names, ∀ child, Refers definitions name child → child ∈ names
  acyclic : ∀ name ∈ names, ¬ Relation.TransGen (Refers definitions) name name

theorem Clear.nil : Clear definitions [] := by
  constructor <;> simp

/-- They are closed under paths. -/
theorem Clear.mem_of_path {names : List String} (h : Clear definitions names)
    {name below : String} (hname : name ∈ names)
    (hpath : Relation.ReflTransGen (Refers definitions) name below) : below ∈ names := by
  induction hpath with
  | refl => exact hname
  | tail _ hrefers ih => exact h.closed _ ih _ hrefers

/-- One more name whose references are among them is clear as well. -/
theorem Clear.cons {names : List String} {name : String} (h : Clear definitions names)
    (hfresh : name ∉ names) (hrefers : ∀ child, Refers definitions name child → child ∈ names) :
    Clear definitions (name :: names) := by
  constructor
  · refine List.forall_mem_cons.2 ⟨fun child hchild => ?_, fun a ha child hchild => ?_⟩
    · exact List.mem_cons_of_mem _ (hrefers child hchild)
    · exact List.mem_cons_of_mem _ (h.closed a ha child hchild)
  · refine List.forall_mem_cons.2 ⟨fun hcycle => ?_, h.acyclic⟩
    obtain ⟨child, hchild, hpath⟩ := Relation.TransGen.head'_iff.1 hcycle
    exact hfresh (h.mem_of_path (hrefers child hchild) hpath)

/-- What is pending on a way are references. -/
def Follows (definitions : List ChainDefinition) (s : Search) : Prop :=
  ∀ f ∈ s.way, ∀ child ∈ f.pending, Refers definitions f.name child

theorem Follows.start {done : List String} {d : ChainDefinition} (hd : d ∈ definitions) :
    (start done d).Follows definitions := by
  intro f hf child hchild
  obtain rfl := List.mem_singleton.1 hf
  exact ⟨d, hd, rfl, hchild⟩

theorem Follows.step (hs : s.Follows definitions) (h : Goes definitions s next) :
    next.Follows definitions := by
  cases h with
  | back => exact (List.forall_mem_cons.1 hs).2
  | past =>
    obtain ⟨htop, hbehind⟩ := List.forall_mem_cons.1 hs
    exact List.forall_mem_cons.2 ⟨(List.forall_mem_cons.1 htop).2, hbehind⟩
  | into found =>
    obtain ⟨htop, hbehind⟩ := List.forall_mem_cons.1 hs
    obtain ⟨hmem, hname⟩ := mem_of_find? found
    refine List.forall_mem_cons.2 ⟨fun x hx => ⟨_, hmem, hname, hx⟩, ?_⟩
    exact List.forall_mem_cons.2 ⟨(List.forall_mem_cons.1 htop).2, hbehind⟩

/-- What holds of a search at every step. -/
structure Sound (definitions : List ChainDefinition) (s : Search) : Prop where
  clear : Clear definitions s.done
  way : Way definitions s.done s.way
  follows : s.Follows definitions
  linked : (s.way.map (·.name)).IsChain fun child name => Refers definitions name child
  distinct : (s.way.map (·.name)).Nodup
  apart : ∀ name ∈ s.way.map (·.name), name ∉ s.done

/-- The start of a search is sound if what is done is clear. -/
theorem Sound.start {done : List String} {d : ChainDefinition}
    (hdistinct : (definitions.map (·.name)).Nodup) (hd : d ∈ definitions)
    (hclear : Clear definitions done) (hfresh : d.name ∉ done) :
    (start done d).Sound definitions := by
  constructor
  · exact hclear
  · exact ⟨fun child hchild => .inl ((refers_iff hdistinct (find?_of_mem hdistinct hd)).1 hchild),
      trivial⟩
  · exact .start hd
  · exact .singleton _
  · exact List.nodup_singleton _
  · intro name hname
    obtain rfl := List.mem_singleton.1 hname
    exact hfresh

/-- A step keeps a search sound. -/
theorem Sound.step (hdistinct : (definitions.map (·.name)).Nodup) (hs : s.Sound definitions)
    (h : Goes definitions s next) : next.Sound definitions := by
  have hfollows := hs.follows.step h
  have hpending := hs.follows
  obtain ⟨hclear, hway, -, hlinked, hnodup, hapart⟩ := hs
  cases h with
  | @back done name behind =>
    -- Nothing is pending in the last chain, so all its references are done.
    have hdone : ∀ child, Refers definitions name child → child ∈ done := by
      intro child hchild
      simpa using hway.1 child hchild
    obtain ⟨hname, hbehind⟩ := List.forall_mem_cons.1 hapart
    obtain ⟨hnot, hnodup⟩ := List.nodup_cons.1 hnodup
    refine ⟨hclear.cons hname hdone, hway.2, hfollows, hlinked.tail, hnodup, ?_⟩
    intro a ha hdone
    rcases List.mem_cons.1 hdone with rfl | hdone
    · exact hnot ha
    · exact hbehind a ha hdone
  | @past done name child pending behind known =>
    refine ⟨hclear, ⟨fun x hx => ?_, hway.2⟩, hfollows, hlinked, hnodup, hapart⟩
    rcases hway.1 x hx with hpend | hdone
    · rcases List.mem_cons.1 hpend with rfl | hpend
      · exact .inr known
      · exact .inl hpend
    · exact .inr hdone
  | @into done name child pending behind d found notDone notOnWay =>
    constructor
    · exact hclear
    · refine ⟨fun x hx => .inl ((refers_iff hdistinct found).1 hx), fun x hx => ?_,
        hway.2.mono (List.cons_subset_cons _ (List.subset_cons_self _ _))⟩
      rcases hway.1 x hx with hpend | hdone
      · rcases List.mem_cons.1 hpend with rfl | hpend
        · exact .inr List.mem_cons_self
        · exact .inl hpend
      · exact .inr (List.mem_cons_of_mem _ hdone)
    · exact hfollows
    · exact .cons_cons (hpending _ List.mem_cons_self child List.mem_cons_self) hlinked
    · exact List.nodup_cons.2 ⟨notOnWay, hnodup⟩
    · exact List.forall_mem_cons.2 ⟨notDone, hapart⟩

/-! ## The end of a search -/

/-- A path that a sound search ends with is closed. -/
theorem Sound.closedPath {path : List String} (hs : s.Sound definitions)
    (h : Stops definitions s (.closed path)) : ClosedPath definitions path := by
  cases h with
  | @closed done name child pending behind onWay =>
    obtain ⟨above, below, hnames, habove⟩ := List.eq_append_cons_of_mem onWay
    have htake : (above ++ child :: below).takeWhile (· != child) = above := by
      rw [List.takeWhile_append_of_pos (by simpa using fun a ha => ne_of_mem_of_not_mem ha habove),
        List.takeWhile_cons_of_neg (by simp), List.append_nil]
    have hlinked : (child :: (above ++ child :: below)).IsChain
        fun child name => Refers definitions name child := by
      have hrefers := hs.follows _ List.mem_cons_self child List.mem_cons_self
      rw [← hnames]
      exact .cons_cons hrefers hs.linked
    have hdistinct : (above ++ child :: below).Nodup := by
      rw [← hnames]
      exact hs.distinct
    rw [cycleFrom, hnames, htake]
    constructor
    · simp
    · rw [List.getLast?_concat]
      rfl
    · rw [List.dropLast_concat]
      have hpart : (above ++ [child]).Nodup := hdistinct.sublist (by simp)
      simpa using List.nodup_reverse.2 hpart
    · have hreverse :
          child :: above.reverse ++ [child] = (child :: (above ++ [child])).reverse := by
        simp
      rw [hreverse, List.isChain_reverse]
      exact hlinked.prefix ⟨below, by simp⟩

/-- No lookup of a search can miss where every child is defined. -/
theorem Follows.hits {name : String}
    (hdefined : ChildrenDefined definitions)
    (hs : s.Follows definitions) : ¬ Stops definitions s (.undefined name) := by
  intro h
  cases h with
  | undefined missing =>
    obtain ⟨e, he⟩ := (hs _ List.mem_cons_self name List.mem_cons_self).find? hdefined
    rw [he] at missing
    cases missing

/-- A search from a definition finds that there is no cycle below it, or a closed path. -/
theorem run_start {done : List String} {d : ChainDefinition}
    (hdistinct : (definitions.map (·.name)).Nodup)
    (hdefined : ChildrenDefined definitions)
    (hd : d ∈ definitions) (hclear : Clear definitions done) (hfresh : d.name ∉ done) :
    (∃ names, (start done d).run definitions = .clear names ∧ Clear definitions names ∧
        d.name ∈ names ∧ ∀ name ∈ done, name ∈ names) ∨
      ∃ path, (start done d).run definitions = .closed path ∧ ClosedPath definitions path := by
  obtain ⟨last, ⟨hsound, hknown⟩, hlast⟩ := exists_last_of_inv
    (fun s => s.Sound definitions ∧ ∀ name ∈ (start done d).known, name ∈ s.known)
    (fun s next hs hgoes => ⟨hs.1.step hdistinct hgoes,
      fun name hname => hgoes.known_mono (hs.2 name hname)⟩)
    ⟨.start hdistinct hd hclear hfresh, fun _ hname => hname⟩
  have hstops := stops_of_step hlast
  cases hv : (start done d).run definitions with
  | clear names =>
    rw [hv] at hstops
    cases hstops
    have hin : ∀ name ∈ (start done d).known, name ∈ names := by
      intro name hname
      simpa [mem_known] using hknown name hname
    refine .inl ⟨names, rfl, hsound.clear, hin _ (mem_known.2 (.inr List.mem_cons_self)), ?_⟩
    exact fun name hname => hin name (mem_known.2 (.inl hname))
  | closed path =>
    rw [hv] at hstops
    exact .inr ⟨path, rfl, hsound.closedPath hstops⟩
  | undefined name =>
    rw [hv] at hstops
    exact absurd hstops (hsound.follows.hits hdefined)

end Search

end Polyglot
