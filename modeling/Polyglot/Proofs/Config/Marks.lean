import Polyglot.Proofs.Config.Search

/-!
# Marks and names

The search that runs keeps marks and numbers. Where the names of the definitions are distinct, these
tell the search by names: a definition is marked done just when its name is, and the stack gives the
way (`MarkSearch.Shows`). Step by step the two searches do the same (`Shows.goes`, `Shows.stops`), so
they end with the same verdict (`Shows.run`).

A mark says whether a definition is on the stack (`MarkSearch.Kept`), so a definition that closes a
cycle is found there (`Kept.exists_position`).
-/

set_option autoImplicit false

namespace Polyglot

variable {definitions : List ChainDefinition}

/-! ## Numbers and names -/

theorem find?_eq_map_index? (definitions : List ChainDefinition) (name : String) :
    ChainDefinition.find? definitions name =
      (ChainDefinition.index? definitions name).map fun i => definitions.get i :=
  List.find?_eq_map_findFinIdx?_getElem

/-- The number of a name is that of a definition with the name. -/
theorem of_index? {name : String} {i : Fin definitions.length}
    (h : ChainDefinition.index? definitions name = some i) :
    ChainDefinition.find? definitions name = some (definitions.get i) ∧
      (definitions.get i).name = name := by
  have hfind := find?_eq_map_index? definitions name
  rw [h, Option.map_some] at hfind
  exact ⟨hfind, (mem_of_find? hfind).2⟩

section Names

variable {i j : Fin definitions.length} (hdistinct : (definitions.map (·.name)).Nodup)

include hdistinct

theorem eq_of_name_eq (h : (definitions.get i).name = (definitions.get j).name) : i = j := by
  have hsame : definitions[i.val] = definitions[j.val] :=
    List.inj_on_of_nodup_map hdistinct (List.getElem_mem i.isLt) (List.getElem_mem j.isLt) h
  exact Fin.ext ((List.Nodup.getElem_inj_iff hdistinct.of_map).1 hsame)

theorem name_mem_map_iff {l : List (Fin definitions.length)} :
    (definitions.get i).name ∈ l.map (fun j => (definitions.get j).name) ↔ i ∈ l := by
  constructor
  · intro h
    obtain ⟨j, hj, hname⟩ := List.mem_map.1 h
    rwa [← eq_of_name_eq hdistinct hname]
  · exact fun h => List.mem_map.2 ⟨i, h, rfl⟩

end Names

namespace MarkSearch

/-- One step of a search that goes on. -/
def Next (definitions : List ChainDefinition) (s next : MarkSearch definitions.length) : Prop :=
  s.step definitions = .on next

/-! ## What is marked is on the stack -/

/-- Marked as being visited are the definitions on the stack, each of which stands there once. -/
structure Kept {n : Nat} (s : MarkSearch n) : Prop where
  visiting : ∀ i : Fin n, s.marks.get i = some .visiting ↔ i ∈ s.stack.map (·.1)
  distinct : (s.stack.map (·.1)).Nodup

theorem Kept.start {n : Nat} {marks : Marks n}
    (h : ∀ i : Fin n, marks.get i ≠ some .visiting) (i : Fin n) : (start marks i).Kept := by
  constructor
  · intro j
    simp only [MarkSearch.start, get_mark, List.map_cons, List.map_nil, List.mem_singleton]
    split
    · next heq => simp [heq]
    · next hne => exact ⟨fun hj => absurd hj (h j), fun hj => absurd hj.symm hne⟩
  · exact List.nodup_singleton i

theorem Kept.step {s next : MarkSearch definitions.length} (hs : s.Kept)
    (h : Goes definitions s next) : next.Kept := by
  obtain ⟨hvisiting, hdistinct⟩ := hs
  cases h with
  | @back marks i k below last =>
    obtain ⟨hnot, hbelow⟩ := List.nodup_cons.1 hdistinct
    refine ⟨fun j => ?_, hbelow⟩
    have hj := hvisiting j
    simp only [get_mark, List.map_cons, List.mem_cons] at hj ⊢
    split
    · next heq =>
      subst heq
      simp [hnot]
    · next hne => rw [hj, or_iff_right (Ne.symm hne)]
  | past => exact ⟨hvisiting, hdistinct⟩
  | @into marks i child k below name refers found unmarked =>
    constructor
    · intro j
      have hj := hvisiting j
      simp only [get_mark, List.map_cons, List.mem_cons] at hj ⊢
      split
      · next heq => simp [heq]
      · next hne => rw [hj, or_iff_right (Ne.symm hne)]
    · refine List.nodup_cons.2 ⟨fun hmem => ?_, hdistinct⟩
      have hmark := (hvisiting child).2 hmem
      rw [unmarked] at hmark
      cases hmark

/-- A definition that is being visited is found on the way. -/
theorem Kept.exists_position {n : Nat} {s : MarkSearch n} (hs : s.Kept) {i : Fin n}
    (h : s.marks.get i = some .visiting) : ∃ k, s.position? i = some k := by
  obtain ⟨f, hf, hi⟩ := List.mem_map.1 ((hs.visiting i).1 h)
  rw [← Option.isSome_iff_exists, position?, List.findIdx?_isSome, List.any_eq_true]
  exact ⟨f, List.mem_reverse.2 hf, by simpa using hi⟩

/-! ## The search by names -/

/-- The frame of a definition on the stack. -/
def frame (definitions : List ChainDefinition) (f : Fin definitions.length × Nat) : Frame :=
  ⟨(definitions.get f.1).name, (definitions.get f.1).children.drop f.2⟩

/-- Marked as done are the definitions of some names, and none is being visited. -/
structure Known (definitions : List ChainDefinition)
    (marks : Marks definitions.length) (done : List String) : Prop where
  done : ∀ i : Fin definitions.length, marks.get i = some .done ↔ (definitions.get i).name ∈ done
  none : ∀ i : Fin definitions.length, marks.get i ≠ some .visiting

/-- Where nothing is marked, nothing is known. -/
theorem Known.unmarked (definitions : List ChainDefinition) :
    Known definitions (MarkSearch.unmarked definitions.length) [] := by
  constructor <;> simp [get_unmarked]

/-- A search with marks and numbers tells one by names. -/
structure Shows (s : MarkSearch definitions.length) (t : Search) : Prop where
  done : ∀ i : Fin definitions.length, s.marks.get i = some .done ↔ (definitions.get i).name ∈ t.done
  kept : s.Kept
  way : t.way = s.stack.map (frame definitions)

theorem Shows.names {s : MarkSearch definitions.length} {t : Search} (h : s.Shows t) :
    t.way.map (·.name) = (s.stack.map (·.1)).map fun i => (definitions.get i).name := by
  rw [h.way, List.map_map, List.map_map]
  rfl

theorem shows_start {marks : Marks definitions.length} {done : List String}
    (h : Known definitions marks done) {i : Fin definitions.length} (hi : marks.get i = none) :
    (start marks i).Shows (Search.start done (definitions.get i)) := by
  refine ⟨fun j => ?_, .start h.none i, ?_⟩
  · have hj := h.done j
    simp only [start, get_mark, Search.start]
    split
    · next heq =>
      subst heq
      rw [hi] at hj
      simpa using hj
    · exact hj
  · simp [start, Search.start, frame]

theorem Shows.name_mem_iff (hdistinct : (definitions.map (·.name)).Nodup)
    {s : MarkSearch definitions.length} {t : Search} (h : s.Shows t)
    (i : Fin definitions.length) :
    (definitions.get i).name ∈ t.way.map (·.name) ↔ i ∈ s.stack.map (·.1) := by
  rw [h.names, name_mem_map_iff hdistinct]

/-- Two verdicts say the same. -/
inductive Agree (definitions : List ChainDefinition) :
    Verdict (Marks definitions.length) → Verdict (List String) → Prop where
  | clear {marks : Marks definitions.length} {done : List String}
      (known : Known definitions marks done) : Agree definitions (.clear marks) (.clear done)
  | closed (path : List String) : Agree definitions (.closed path) (.closed path)
  | undefined (name : String) : Agree definitions (.undefined name) (.undefined name)

theorem Agree.of_clear {v : Verdict (Marks definitions.length)} {done : List String}
    (h : Agree definitions v (.clear done)) : ∃ marks, v = .clear marks ∧
      Known definitions marks done := by
  cases h with
  | clear known => exact ⟨_, rfl, known⟩

theorem Agree.of_closed {v : Verdict (Marks definitions.length)} {path : List String}
    (h : Agree definitions v (.closed path)) : v = .closed path := by
  cases h
  rfl

/-- A definition on the stack stands as far along the way as there are others before it. -/
theorem position?_eq {s : MarkSearch definitions.length} {i : Fin definitions.length} {k : Nat}
    {above below : List (Fin definitions.length × Nat)} (hstack : s.stack = above ++ (i, k) :: below)
    (hi : i ∉ below.map (·.1)) : s.position? i = some below.length := by
  have hnone : below.reverse.findIdx? (fun f => f.1 == i) = Option.none := by
    rw [List.findIdx?_eq_none_iff]
    intro f hf
    have hmem : f.1 ∈ below.map (·.1) := List.mem_map.2 ⟨f, List.mem_reverse.1 hf, rfl⟩
    simpa using ne_of_mem_of_not_mem hmem hi
  rw [position?, hstack, List.reverse_append, List.reverse_cons, List.append_assoc,
    List.findIdx?_append, hnone]
  simp [List.findIdx?_cons]

theorem pending_eq {i : Fin definitions.length} {k : Nat} {name : String}
    (h : (definitions.get i).children[k]? = some name) :
    (definitions.get i).children.drop k = name :: (definitions.get i).children.drop (k + 1) := by
  obtain ⟨hk, rfl⟩ := List.getElem?_eq_some_iff.1 h
  exact List.drop_eq_getElem_cons hk

section Told

variable (hdistinct : (definitions.map (·.name)).Nodup) {s next : MarkSearch definitions.length}
  {t : Search}

include hdistinct

/-- The path that a reference closes, told by names. -/
theorem Kept.closing_eq (hs : s.Kept) {i : Fin definitions.length}
    (hi : i ∈ s.stack.map (·.1)) :
    closing definitions s i =
      Search.cycleFrom (definitions.get i).name
        (s.stack.map fun f => (definitions.get f.1).name) ++ [(definitions.get i).name] := by
  obtain ⟨⟨i, k⟩, hf, rfl⟩ := List.mem_map.1 hi
  obtain ⟨above, below, hstack⟩ := List.append_of_mem hf
  have hnodup := hs.distinct
  rw [hstack, List.map_append, List.map_cons, List.nodup_append] at hnodup
  obtain ⟨-, hbelow, habove⟩ := hnodup
  have htake : (above.map fun f => (definitions.get f.1).name) =
      (s.stack.map fun f => (definitions.get f.1).name).takeWhile
        (· != (definitions.get i).name) := by
    rw [hstack, List.map_append, List.map_cons, List.takeWhile_append_of_pos,
      List.takeWhile_cons_of_neg (by simp), List.append_nil]
    intro name hname
    obtain ⟨f, hf, rfl⟩ := List.mem_map.1 hname
    have hne : f.1 ≠ i := habove f.1 (List.mem_map.2 ⟨f, hf, rfl⟩) i List.mem_cons_self
    simpa using fun heq => hne (eq_of_name_eq hdistinct heq)
  rw [closing, position?_eq hstack (List.nodup_cons.1 hbelow).1, Search.cycleFrom, ← htake, hstack]
  simp

/-- A step that goes on is one of the search by names. -/
theorem Shows.goes (hs : s.Shows t) (h : Goes definitions s next) :
    ∃ t', t.step definitions = .on t' ∧ next.Shows t' := by
  have honWay := hs.name_mem_iff hdistinct
  have hnext := hs.kept.step h
  obtain ⟨done, way⟩ := t
  obtain rfl : way = s.stack.map (frame definitions) := hs.way
  cases h with
  | @back marks i k below last =>
    have hpending : (definitions.get i).children.drop k = [] :=
      List.drop_eq_nil_of_le (List.getElem?_eq_none_iff.1 last)
    rw [List.map_cons, frame, hpending]
    refine ⟨_, rfl, fun j => ?_, hnext, rfl⟩
    have hj := hs.done j
    simp only [get_mark, List.mem_cons] at hj ⊢
    split
    · next heq => simp [heq]
    · next hne => rw [hj, or_iff_right fun hname => hne (eq_of_name_eq hdistinct hname).symm]
  | @past marks i child k below name refers found known =>
    obtain ⟨hfind, rfl⟩ := of_index? found
    have hdone := (hs.done child).1 known
    rw [List.map_cons, frame, pending_eq refers, Search.step_past hfind hdone]
    exact ⟨_, rfl, hs.done, hnext, rfl⟩
  | @into marks i child k below name refers found unmarked =>
    obtain ⟨hfind, rfl⟩ := of_index? found
    have hnotDone := (hs.done child).not.1 (by simp [unmarked])
    have hnotOnWay : (definitions.get child).name ∉
        (definitions.get i).name :: (below.map (frame definitions)).map (·.name) :=
      (honWay child).not.2 ((hs.kept.visiting child).not.1 (by simp [unmarked]))
    rw [List.map_cons, frame, pending_eq refers, Search.step_into hfind hnotDone hnotOnWay]
    refine ⟨_, rfl, fun j => ?_, hnext, by simp [frame]⟩
    simp only [get_mark]
    split
    · next heq =>
      subst heq
      exact iff_of_false (by simp) hnotDone
    · exact hs.done j

/-- Where a search ends, the search by names ends as well, and with the same. -/
theorem Shows.stops (hs : s.Shows t) {v : Verdict (Marks definitions.length)}
    (h : Stops definitions s v) : ∃ w, t.step definitions = .stop w ∧ Agree definitions v w := by
  have honWay := hs.name_mem_iff hdistinct
  obtain ⟨done, way⟩ := t
  obtain rfl : way = s.stack.map (frame definitions) := hs.way
  cases h with
  | clear =>
    refine ⟨_, rfl, .clear ⟨hs.done, fun i hi => ?_⟩⟩
    exact absurd ((hs.kept.visiting i).1 hi) List.not_mem_nil
  | @undefined marks i k below name refers missing =>
    have hfind := find?_eq_map_index? definitions name
    rw [missing, Option.map_none] at hfind
    rw [List.map_cons, frame, pending_eq refers, Search.step_undefined hfind]
    exact ⟨_, rfl, .undefined name⟩
  | @closed marks i child k below name refers found onWay =>
    obtain ⟨hfind, rfl⟩ := of_index? found
    have hnotDone := (hs.done child).not.1 (by simp [onWay])
    have hmem := (hs.kept.visiting child).1 onWay
    have hon : (definitions.get child).name ∈
        (definitions.get i).name :: (below.map (frame definitions)).map (·.name) :=
      (honWay child).2 hmem
    -- The reference that closes the path is no longer pending.
    have hafter : Kept ⟨marks, (i, k + 1) :: below⟩ := ⟨hs.kept.visiting, hs.kept.distinct⟩
    rw [List.map_cons, frame, pending_eq refers, Search.step_closed hfind hnotDone hon,
      hafter.closing_eq hdistinct hmem, List.map_map]
    exact ⟨_, rfl, .closed _⟩

/-- So the two searches end with the same. -/
theorem Shows.run (h : s.Shows t) : Agree definitions (s.run definitions) (t.run definitions) := by
  -- The induction is on the work that is left for the search with marks.
  generalize hn : s.remaining definitions = n
  induction n using Nat.strongRecOn generalizing s t with
  | ind n ih =>
    cases hs : s.step definitions with
    | on next =>
      have hgoes := goes_of_step hs
      obtain ⟨t', ht, hnext⟩ := h.goes hdistinct hgoes
      rw [MarkSearch.run, Search.run, Move.run_of_on _ hs, Move.run_of_on _ ht]
      exact ih _ (hn ▸ hgoes.remaining_lt) hnext rfl
    | stop v =>
      obtain ⟨w, ht, hagree⟩ := h.stops hdistinct (stops_of_step hs)
      rw [MarkSearch.run, Search.run, Move.run_of_stop _ hs, Move.run_of_stop _ ht]
      exact hagree

end Told

/-! ## Lookups -/

/-- Every search comes to its last state in finitely many steps, and the verdict is what that state
gives. -/
theorem exists_last (definitions : List ChainDefinition) (s : MarkSearch definitions.length) :
    ∃ last, Relation.ReflTransGen (Next definitions) s last ∧
      last.step definitions = .stop (s.run definitions) :=
  Move.exists_last _ s

/-- No reference misses where every child is defined. -/
theorem step_ne_undefined (hdefined : ChildrenDefined definitions)
    (s : MarkSearch definitions.length) (name : String) :
    s.step definitions ≠ .stop (.undefined name) := by
  intro h
  cases stops_of_step h with
  | @undefined marks i k below name refers missing =>
    have hrefers : Refers definitions (definitions.get i).name name :=
      ⟨(definitions.get i), List.getElem_mem _, rfl, List.mem_of_getElem? refers⟩
    obtain ⟨d, hd⟩ := hrefers.find? hdefined
    rw [find?_eq_map_index?, missing] at hd
    cases hd

/-- What is marked stays on the stack all the way of a search that starts with no definition on the
way. -/
theorem kept_of_reaches {marks : Marks definitions.length}
    (h : ∀ i : Fin definitions.length, marks.get i ≠ some .visiting) {i : Fin definitions.length}
    {s : MarkSearch definitions.length}
    (hreaches : Relation.ReflTransGen (Next definitions) (MarkSearch.start marks i) s) :
    s.Kept := by
  induction hreaches with
  | refl => exact .start h i
  | tail _ hstep ih => exact ih.step (goes_of_step hstep)

end MarkSearch

end Polyglot
