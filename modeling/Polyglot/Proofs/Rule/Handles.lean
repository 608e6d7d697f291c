import Mathlib.Algebra.GroupWithZero.Nat
import Polyglot.Rule.Violation

/-!
# Handles stay good

A recorder gives out a handle for each violation that is recorded by its title, and a rule may use
any of them at any time while the recorder grows. A run of calls (`Recording.Runs`) goes through
handles that were given out before. Entries are only ever appended, and what a call changes of the
others is the place of one of them (`getElem?_perform`). So along a run no handle is lost, titles
stay where they are, and an entry stands where the last write through its handle put it
(`Runs.getElem?`).
-/

set_option autoImplicit false

namespace Polyglot

/-- The location between two offsets in either order, as far as they lie in the source. -/
def Source.between (s : Source) (a b : Nat) : Location :=
  let start := min (min a b) s.length
  let stop := min (max a b) s.length
  ⟨⟨start, stop⟩, s.pointOf start, s.pointOf stop⟩

theorem Source.locate_min_max (bytes : Bytes) (a b : Nat) :
    (ofBytes bytes).locate (min a b) (max a b) = (ofBytes bytes).between a b := by
  have hstop : max (min (min a b) bytes.length) (min (max a b) bytes.length) =
      min (max a b) bytes.length := by omega
  show (⟨⟨_, max _ _⟩, _, (LineIndex.ofBytes bytes).pointOf (max _ _)⟩ : Location) = _
  rw [show (ofBytes bytes).lines.length = bytes.length from rfl, hstop]
  rfl

/-- The violation at a place, if one is given, and else where it was. -/
def Violation.placed (place : Option Location) (v : Violation) : Violation :=
  { v with location := place.or v.location }

theorem Violation.map_placed_none (v : Option Violation) : v.map (placed none) = v := by
  cases v <;> rfl

theorem Violation.placed_placed (p q : Option Location) (v : Violation) :
    placed p (placed q v) = placed (p.or q) v := by
  cases p <;> rfl

theorem Recorder.length_ofMatches (title : String) (matched : List QueryMatch) :
    (ofMatches title matched).length = (matched.map (·.captures.length)).sum := by
  simp [ofMatches, List.length_flatMap]

/-- A recorder in use, with the handles that it has given out. -/
structure Recording where
  recorder : Recorder
  handles : List Handle

namespace Recording

/-- Before the first call. -/
def start (source : Source) : Recording :=
  ⟨Recorder.empty source, []⟩

/-! ## Calls -/

/-- What can be called. -/
inductive Call where
  | record (title : String)
  | setRange (h : Handle) (a b : Nat)
  | setLocation (h : Handle) (l : Location)
  | recordMatches (title : String) (matched : List QueryMatch)

namespace Call

/-- The entries that a call adds. -/
def entries : Call → List Violation
  | record title => [⟨title, none⟩]
  | recordMatches title matched => Recorder.ofMatches title matched
  | setRange _ _ _ => []
  | setLocation _ _ => []

/-- How many violations a call records: one for a title, and one for each capture of some
matches. -/
def count : Call → Nat
  | record _ => 1
  | recordMatches _ matched => (matched.map (·.captures.length)).sum
  | setRange _ _ _ => 0
  | setLocation _ _ => 0

theorem length_entries (c : Call) : c.entries.length = c.count := by
  cases c with
  | recordMatches title matched => exact Recorder.length_ofMatches title matched
  | _ => rfl

/-- The title that a call is given a handle for. -/
def titled? : Call → Option String
  | record title => some title
  | setRange _ _ _ => none
  | setLocation _ _ => none
  | recordMatches _ _ => none

/-- The write of a call: the handle that it goes through, and two offsets. -/
def write? : Call → Option (Handle × Nat × Nat)
  | setRange h a b => some (h, a, b)
  | setLocation h l => some (h, l.start, l.stop)
  | record _ => none
  | recordMatches _ _ => none

/-- Where a call puts an entry, if it writes to it. -/
def place? (source : Source) (i : Nat) (c : Call) : Option Location :=
  match c.write? with
  | some (h, a, b) => if h.index = i then some (source.between a b) else none
  | none => none

end Call

/-- The titles of the entries. -/
def titles (s : Recording) : List String :=
  s.recorder.violations.map (·.title)

/-- The title at the entry of each handle, in the order in which they were given out. -/
def titled (s : Recording) : List (Option String) :=
  s.handles.map fun h => s.titles[h.index]?

/-- What a call leaves. -/
def perform (s : Recording) : Call → Recording
  | .record title => ⟨(s.recorder.record title).2, s.handles ++ [(s.recorder.record title).1]⟩
  | .setRange h a b => { s with recorder := s.recorder.setRange h a b }
  | .setLocation h l => { s with recorder := s.recorder.setLocation h l }
  | .recordMatches title matched =>
    { s with recorder := (s.recorder.recordMatches title matched).2 }

/-- A run of calls. Each goes through a handle that was given out before it, if it needs one. -/
inductive Runs : Recording → List Call → Recording → Prop where
  | done (s : Recording) : Runs s [] s
  | call {s e : Recording} {c : Call} {calls : List Call}
      (given : ∀ w, c.write? = some w → w.1 ∈ s.handles) (rest : Runs (s.perform c) calls e) :
      Runs s (c :: calls) e

/-- Where the last write of a run to an entry puts it, if there is one. -/
def lastPlace (source : Source) (i : Nat) (calls : List Call) : Option Location :=
  (calls.filterMap (Call.place? source i)).getLast?

theorem lastPlace_cons (source : Source) (i : Nat) (c : Call) (calls : List Call) :
    lastPlace source i (c :: calls) = (lastPlace source i calls).or (c.place? source i) := by
  unfold lastPlace
  cases hplace : c.place? source i with
  | none => rw [List.filterMap_cons_none hplace, Option.or_none]
  | some place =>
    rw [List.filterMap_cons_some hplace, List.getLast?_cons]
    cases (calls.filterMap (Call.place? source i)).getLast? <;> rfl

/-! ## What one call does -/

variable {bytes : Bytes} {s e : Recording} {c : Call} {calls : List Call}

/-- The recorder is one of the source, and every handle that was given out has its entry, which is
behind those of the handles before it. -/
structure Good (bytes : Bytes) (s : Recording) : Prop where
  source : s.recorder.source = Source.ofBytes bytes
  inBounds : ∀ h ∈ s.handles, h.index < s.recorder.size
  ascends : s.handles.Pairwise (fun h k => h.index < k.index)

theorem good_start (bytes : Bytes) : Good bytes (start (Source.ofBytes bytes)) :=
  ⟨rfl, nofun, .nil⟩

/-- The entries after a call are those before it and the new ones, each where the call puts it. -/
theorem getElem?_perform (hs : s.recorder.source = Source.ofBytes bytes) (c : Call) (i : Nat) :
    (s.perform c).recorder.violations[i]? =
      (s.recorder.violations ++ c.entries)[i]?.map
        (Violation.placed (c.place? (Source.ofBytes bytes) i)) := by
  have hwrite : ∀ (h : Handle) (a b : Nat),
      (s.recorder.setRange h a b).violations[i]? = s.recorder.violations[i]?.map
        (Violation.placed ((Call.setRange h a b).place? (Source.ofBytes bytes) i)) := by
    intro h a b
    have hplace : s.recorder.source.locate (min a b) (max a b) =
        (Source.ofBytes bytes).between a b := by
      rw [hs, Source.locate_min_max]
    simp only [Recorder.setRange, hplace, List.getElem?_modify, Call.place?, Call.write?]
    split
    · rfl
    · exact (Option.map_id_apply).trans (Violation.map_placed_none _).symm
  cases c with
  | record title => exact (Violation.map_placed_none _).symm
  | recordMatches title matched => exact (Violation.map_placed_none _).symm
  | setRange h a b =>
    rw [Call.entries, List.append_nil]
    exact hwrite h a b
  | setLocation h l =>
    rw [Call.entries, List.append_nil]
    exact hwrite h l.start l.stop

theorem size_perform (s : Recording) (c : Call) :
    (s.perform c).recorder.size = s.recorder.size + c.count := by
  rw [← c.length_entries]
  cases c with
  | record | recordMatches => exact List.length_append
  | setRange | setLocation => exact List.length_modify _ _ _

/-- The source stays, and a handle that is given out is that of the entry behind the others. -/
theorem Good.perform (hs : s.Good bytes) (c : Call) : (s.perform c).Good bytes := by
  have hsize := size_perform s c
  have hkept : ∀ h ∈ s.handles, h.index < (s.perform c).recorder.size := by
    intro h hh
    have := hs.inBounds h hh
    omega
  cases c with
  | record title =>
    refine ⟨hs.source, fun h hh => ?_, List.pairwise_append.2 ⟨hs.ascends, ?_, fun h hh k hk => ?_⟩⟩
    · rcases List.mem_append.1 hh with hh | hh
      · exact hkept h hh
      · obtain rfl := List.mem_singleton.1 hh
        show s.recorder.size < _
        rw [hsize]
        exact Nat.lt_succ_self _
    · exact List.pairwise_singleton _ _
    · obtain rfl := List.mem_singleton.1 hk
      exact hs.inBounds h hh
  | setRange | setLocation | recordMatches => exact ⟨hs.source, hkept, hs.ascends⟩

theorem handles_perform (s : Recording) (c : Call) : s.handles <+: (s.perform c).handles := by
  cases c with
  | record title => exact List.prefix_append _ _
  | setRange | setLocation | recordMatches => exact List.prefix_rfl

theorem titles_perform (hs : s.Good bytes) (c : Call) :
    (s.perform c).titles = s.titles ++ c.entries.map (·.title) := by
  unfold titles
  rw [← List.map_append]
  apply List.ext_getElem?
  intro i
  rw [List.getElem?_map, List.getElem?_map, getElem?_perform hs.source, Option.map_map]
  rfl

/-- The handles keep their titles, and a new one has that of the call. -/
theorem titled_perform (hs : s.Good bytes) (c : Call) :
    (s.perform c).titled = s.titled ++ (c.titled?.map some).toList := by
  have hlength : s.titles.length = s.recorder.size := List.length_map _
  have htitles := titles_perform hs c
  have hkept : s.handles.map (fun h => (s.perform c).titles[h.index]?) = s.titled := by
    apply List.map_congr_left
    intro h hh
    rw [htitles, List.getElem?_append_left]
    exact hlength.symm ▸ hs.inBounds h hh
  cases c with
  | record title =>
    have hnew : (s.perform (.record title)).titles[s.recorder.size]? = some title := by
      rw [htitles, ← hlength]
      exact List.getElem?_concat_length
    have happend : (s.perform (.record title)).titled =
        s.handles.map (fun h => (s.perform (.record title)).titles[h.index]?) ++
          [(s.perform (.record title)).titles[s.recorder.size]?] := List.map_append
    rw [happend, hkept, hnew]
    rfl
  | setRange | setLocation | recordMatches => exact hkept.trans (List.append_nil _).symm

/-- A call that goes through a good handle writes to an entry that is there. -/
theorem Good.place?_eq_none (hs : s.Good bytes) (hgiven : ∀ w, c.write? = some w → w.1 ∈ s.handles)
    {i : Nat} (hi : s.recorder.size ≤ i) : c.place? (Source.ofBytes bytes) i = none := by
  unfold Call.place?
  split
  · next h a b hwrite =>
    have hlt := hs.inBounds h (hgiven _ hwrite)
    exact if_neg (by omega)
  · rfl

/-! ## What a run does -/

theorem Runs.good (h : Runs s calls e) (hs : s.Good bytes) : e.Good bytes := by
  induction h with
  | done => exact hs
  | call _ _ ih => exact ih (hs.perform _)

theorem Runs.handles_prefix (h : Runs s calls e) : s.handles <+: e.handles := by
  induction h with
  | done => exact List.prefix_rfl
  | call _ _ ih => exact (handles_perform _ _).trans ih

theorem Runs.size (h : Runs s calls e) :
    e.recorder.size = s.recorder.size + (calls.map Call.count).sum := by
  induction h with
  | done => rfl
  | call _ _ ih => rw [ih, size_perform, List.map_cons, List.sum_cons, Nat.add_assoc]

/-- The entries after a run are those before it and the new ones, each where the last write to it
puts it. -/
theorem Runs.getElem? (h : Runs s calls e) (hs : s.Good bytes) (i : Nat) :
    e.recorder.violations[i]? = (s.recorder.violations ++ calls.flatMap Call.entries)[i]?.map
      (Violation.placed (lastPlace (Source.ofBytes bytes) i calls)) := by
  induction h with
  | done s =>
    rw [List.flatMap_nil, List.append_nil]
    exact (Violation.map_placed_none _).symm
  | @call s e c calls given rest ih =>
    -- The call writes to none of the entries that come after it.
    have hfirst : ((s.perform c).recorder.violations ++ calls.flatMap Call.entries)[i]? =
        (s.recorder.violations ++ (c :: calls).flatMap Call.entries)[i]?.map
          (Violation.placed (c.place? (Source.ofBytes bytes) i)) := by
      have hlength : (s.perform c).recorder.violations.length =
          (s.recorder.violations ++ c.entries).length := by
        rw [List.length_append, c.length_entries]
        exact size_perform s c
      rw [List.flatMap_cons, ← List.append_assoc]
      by_cases hi : i < (s.perform c).recorder.violations.length
      · rw [List.getElem?_append_left hi, List.getElem?_append_left (by rwa [← hlength]),
          getElem?_perform hs.source]
      · have hi := Nat.le_of_not_lt hi
        have hsize : s.recorder.size ≤ i := by
          have hgrown := size_perform s c
          exact Nat.le_trans (Nat.le.intro hgrown.symm) hi
        rw [hs.place?_eq_none given hsize, Violation.map_placed_none,
          List.getElem?_append_right hi, List.getElem?_append_right (by rwa [← hlength]), hlength]
    rw [ih (hs.perform c), hfirst, Option.map_map, lastPlace_cons]
    congr 1
    exact funext fun v => Violation.placed_placed _ _ v

/-- The titles after a run are those before it and the new ones. -/
theorem Runs.titles (h : Runs s calls e) (hs : s.Good bytes) :
    e.titles = s.titles ++ (calls.flatMap Call.entries).map (·.title) := by
  induction h with
  | done => exact (List.append_nil _).symm
  | @call s e c calls given rest ih =>
    rw [ih (hs.perform c), titles_perform hs, List.append_assoc, List.flatMap_cons, List.map_append]

theorem Runs.titled (h : Runs s calls e) (hs : s.Good bytes) :
    e.titled = s.titled ++ (calls.filterMap Call.titled?).map some := by
  induction h with
  | done => exact (List.append_nil _).symm
  | @call s e c calls given rest ih =>
    rw [ih (hs.perform c), titled_perform hs, List.append_assoc]
    cases htitled : c.titled? with
    | none => rw [List.filterMap_cons_none htitled]; rfl
    | some title => rw [List.filterMap_cons_some htitled]; rfl

/-! ## Whole runs -/

/-- The entry of a handle is put at a place, and nothing else changes. -/
structure Moves (h : Handle) (place : Location) (r r' : Recorder) : Prop where
  entry : ∃ v, r.violations[h.index]? = some v ∧
    r'.violations[h.index]? = some { v with location := some place }
  others : ∀ i, i ≠ h.index → r'.violations[i]? = r.violations[i]?
  source : r'.source = r.source

theorem Good.moves (hs : s.Good bytes) {h : Handle} {a b : Nat} (hwrite : c.write? = some (h, a, b))
    (hh : h ∈ s.handles) :
    Moves h ((Source.ofBytes bytes).between a b) s.recorder (s.perform c).recorder := by
  have hentries : c.entries = [] := by
    cases c with
    | setRange | setLocation => rfl
    | record | recordMatches => cases hwrite
  have hentry : ∀ i, (s.perform c).recorder.violations[i]? = s.recorder.violations[i]?.map
      (Violation.placed (c.place? (Source.ofBytes bytes) i)) := by
    intro i
    rw [getElem?_perform hs.source, hentries, List.append_nil]
  refine ⟨?_, ?_, ?_⟩
  · have hlt : h.index < s.recorder.violations.length := hs.inBounds h hh
    refine ⟨_, List.getElem?_eq_getElem hlt, ?_⟩
    simp [hentry, List.getElem?_eq_getElem hlt, Call.place?, hwrite, Violation.placed]
  · intro i hi
    have hplace : c.place? (Source.ofBytes bytes) i = none := by
      simp [Call.place?, hwrite, Ne.symm hi]
    rw [hentry, hplace, Violation.map_placed_none]
  · rw [(hs.perform c).source, hs.source]

/-- Whatever was called on a recorder, it holds one entry for each violation that was recorded by
its title and for each capture, and every handle that it has given out has an entry of its own,
that of its title. Whatever is called then, no handle is lost, no entry is removed, and all titles
stay in their order. An entry stands where the last write through its handle put it, and without one
where it was recorded; a write moves the one entry, to the range between its offsets as far as it
lies in the source. -/
theorem handles_stay_good {more : List Call} (hs : (start (Source.ofBytes bytes)).Runs calls s)
    (he : s.Runs more e) :
    s.recorder.size = (calls.map Call.count).sum ∧
    ((∀ h ∈ s.handles, h.index < s.recorder.size) ∧
      s.handles.Pairwise (fun h k => h.index < k.index) ∧
      s.titled = (calls.filterMap Call.titled?).map some) ∧
    (s.handles <+: e.handles ∧ s.recorder.size ≤ e.recorder.size ∧ s.titles <+: e.titles) ∧
    (∀ i, s.recorder.violations[i]? = (calls.flatMap Call.entries)[i]?.map
      (Violation.placed (lastPlace (Source.ofBytes bytes) i calls))) ∧
    ∀ c h a b, c.write? = some (h, a, b) → h ∈ s.handles →
      Moves h ((Source.ofBytes bytes).between a b) s.recorder (s.perform c).recorder := by
  have hstart := good_start bytes
  have hgood := hs.good hstart
  refine ⟨?_, ⟨hgood.inBounds, hgood.ascends, hs.titled hstart⟩, ⟨he.handles_prefix, ?_, ?_⟩,
    hs.getElem? hstart, ?_⟩
  · rw [hs.size]
    exact Nat.zero_add _
  · rw [he.size]
    exact Nat.le_add_right _ _
  · rw [he.titles hgood]
    exact List.prefix_append _ _
  · intro c h a b hwrite hh
    exact hgood.moves hwrite hh

namespace Sample

/-- Two lines with a word in each. -/
def lines : Bytes :=
  Bytes.ofString "ab\ncd\n"

/-- The first of the words. -/
def word : Capture :=
  ⟨"word", 0, SyntaxTree.root (.build .html 0 lines
    ⟨.node ⟨0, "word", ⟨true, false, false, false, false⟩, none, ⟨0, 2⟩⟩ [], ""⟩
    (OffsetMap.identity 6) (Source.ofBytes lines))⟩

/-- Two violations by their titles with a capture between them, and writes to both, the first of
which is taken back. -/
def writes : List Call :=
  [.record "first", .recordMatches "caught" [⟨0, [word]⟩], .record "second", .setRange ⟨0⟩ 4 1,
    .setRange ⟨2⟩ 100 3, .setRange ⟨0⟩ 0 2]

/-- What these calls leave. -/
def written : Recording :=
  writes.foldl perform (start (Source.ofBytes lines))

theorem runs_writes : (start (Source.ofBytes lines)).Runs writes written := by
  refine .call nofun (.call nofun (.call nofun (.call ?_ (.call ?_ (.call ?_ (.done _)))))) <;>
    (rintro w ⟨⟩; decide +kernel)

end Sample

/-- The second write to the first entry wins, and the entry behind the capture is put between an
offset and the end of the lines. Recording more and writing again loses none of them. -/
theorem handles_stay_good_lines :
    (start (Source.ofBytes Sample.lines)).Runs Sample.writes Sample.written ∧
    (∃ e, Sample.written.Runs [.record "third", .setRange ⟨2⟩ 0 1] e ∧
      [⟨0⟩, ⟨2⟩] <+: e.handles ∧ 3 ≤ e.recorder.size) ∧
    Sample.written.recorder.size = 3 ∧ Sample.written.titled = [some "first", some "second"] ∧
    Sample.written.recorder.violations[0]? =
      some ⟨"first", some ⟨⟨0, 2⟩, ⟨0, 0⟩, ⟨0, 2⟩⟩⟩ ∧
    Sample.written.recorder.violations[2]? =
      some ⟨"second", some ⟨⟨3, 6⟩, ⟨1, 0⟩, ⟨2, 0⟩⟩⟩ ∧
    Moves ⟨2⟩ ((Source.ofBytes Sample.lines).between 0 1) Sample.written.recorder
      (Sample.written.perform (.setRange ⟨2⟩ 0 1)).recorder := by
  have hmore : Sample.written.Runs [.record "third", .setRange ⟨2⟩ 0 1]
      ((Sample.written.perform (.record "third")).perform (.setRange ⟨2⟩ 0 1)) := by
    refine .call nofun (.call ?_ (.done _))
    rintro w ⟨⟩
    decide +kernel
  obtain ⟨hsize, ⟨-, -, htitled⟩, ⟨hhandles, hgrown, -⟩, hentry, hmoves⟩ :=
    handles_stay_good Sample.runs_writes hmore
  have hthree : Sample.written.recorder.size = 3 := hsize
  refine ⟨Sample.runs_writes, ⟨_, hmore, hhandles, ?_⟩, hthree, htitled, ?_, ?_, ?_⟩
  · rwa [hthree] at hgrown
  · rw [hentry]
    decide +kernel
  · rw [hentry]
    decide +kernel
  · exact hmoves (.setRange ⟨2⟩ 0 1) ⟨2⟩ 0 1 rfl (by decide +kernel)

end Recording

end Polyglot
