import Mathlib.Data.List.Nodup
import Polyglot.Files
import Polyglot.Proofs.Path.Steps

/-!
# Walks through file trees

In a tree whose folders have members of distinct names (`Entry.Proper`) a walk below a folder lists
each file whose names it does not skip (`mem_filesFrom`). What it lists are paths: the path that
names are joined to leads where the names lead from the entry at the path (`trail_foldl_join`), and
so does every other path with the same steps (`follow_of_components`).
-/

set_option autoImplicit false

namespace Polyglot

/-- The members of a folder have names that can be looked up, no two the same, and so have those of
the folders in it. -/
inductive Entry.Proper : Entry → Prop where
  | file (name : String) (content : Bytes) : Proper (.file name content)
  | folder {name : String} {members : List Entry} (named : ∀ e ∈ members, Path.IsName e.name)
      (distinct : (members.map Entry.name).Nodup) (proper : ∀ e ∈ members, Proper e) :
      Proper (.folder name members)

/-- A folder of files with distinct names is proper. -/
theorem Entry.proper_of_files {name : String} {members : List Entry}
    (hnamed : ∀ e ∈ members, Path.IsName e.name) (hdistinct : (members.map Entry.name).Nodup)
    (hfiles : ∀ e ∈ members, e.isFile = true) : (Entry.folder name members).Proper := by
  refine .folder hnamed hdistinct fun e he => ?_
  cases e with
  | file name content => exact .file name content
  | folder name members => cases hfiles _ he

/-- How the step is written. -/
def Path.Component.piece : Path.Component → String
  | .root => ""
  | .here => "."
  | .up => ".."
  | .name text => text

namespace Files

variable {files : Files} {trail trail' start : List Entry} {here piece name : String}
  {members : List Entry} {pieces rest names : List String} {p q : Path} {e : Entry}

/-! ## Following pieces -/

/-- The trail after one piece. -/
def turn (files : Files) (trail : List Entry) (piece : String) : Except ReadFailure (List Entry) :=
  match files.current trail with
  | .file _ _ => .error .notAFolder
  | .folder _ members =>
    if piece == "" || piece == "." then .ok trail
    else if piece == ".." then .ok (trail.drop 1)
    else match members.find? fun e => e.name == piece with
      | some e => .ok (e :: trail)
      | none => .error .notFound

theorem follow_nil (files : Files) (trail : List Entry) : files.follow trail [] = .ok trail := rfl

theorem follow_cons (files : Files) (trail : List Entry) (piece : String) (rest : List String) :
    files.follow trail (piece :: rest) =
      (files.turn trail piece).bind fun trail => files.follow trail rest := by
  rw [follow, turn]
  cases files.current trail with
  | file name content => rfl
  | folder name members =>
    simp only
    split
    · rfl
    · split
      · rfl
      · cases members.find? fun e => e.name == piece <;> rfl

theorem follow_append (files : Files) (trail : List Entry) (pieces more : List String) :
    files.follow trail (pieces ++ more) =
      (files.follow trail pieces).bind fun trail => files.follow trail more := by
  induction pieces generalizing trail with
  | nil => rfl
  | cons piece rest ih =>
    rw [List.cons_append, follow_cons, follow_cons]
    cases files.turn trail piece with
    | error e => rfl
    | ok next => exact ih next

theorem follow_append_of_ok (h : files.follow trail pieces = .ok trail') (more : List String) :
    files.follow trail (pieces ++ more) = files.follow trail' more := by
  rw [follow_append, h]
  rfl

/-- A piece only leads on from a folder. -/
theorem exists_turn (h : files.follow trail (piece :: rest) = .ok trail') :
    ∃ next, files.turn trail piece = .ok next ∧ files.follow next rest = .ok trail' := by
  rw [follow_cons] at h
  cases hturn : files.turn trail piece with
  | error e =>
    rw [hturn] at h
    cases h
  | ok next =>
    rw [hturn] at h
    exact ⟨next, rfl, h⟩

theorem isFile_of_turn (h : files.turn trail piece = .ok trail') :
    (files.current trail).isFile = false := by
  unfold turn at h
  cases hcurrent : files.current trail with
  | file name content =>
    rw [hcurrent] at h
    cases h
  | folder name members => rfl

/-- In a folder a piece without meaning leads nowhere else. -/
theorem turn_of_folder (h : (files.current trail).isFile = false)
    (hpiece : piece = "" ∨ piece = ".") : files.turn trail piece = .ok trail := by
  unfold turn
  cases hcurrent : files.current trail with
  | file name content =>
    rw [hcurrent] at h
    cases h
  | folder name members => simp [hpiece]

/-- The trail that the pieces of a path start from. -/
def base (files : Files) (p : Path) : Except ReadFailure (List Entry) :=
  if p.isAbsolute then .ok [] else files.follow [] files.directory

theorem trail_eq (hp : p.text ≠ "") :
    files.trail p = (files.base p).bind fun start => files.follow start p.segments := by
  have htext : (p.text == "") = false := beq_false_of_ne hp
  unfold trail base
  rw [htext, if_neg Bool.false_ne_true]
  split <;> rfl

theorem exists_base (h : files.trail p = .ok trail) :
    p.text ≠ "" ∧ ∃ start, files.base p = .ok start ∧
      files.follow start p.segments = .ok trail := by
  have hp : p.text ≠ "" := by
    intro hp
    simp [Files.trail, hp] at h
  refine ⟨hp, ?_⟩
  rw [trail_eq hp] at h
  cases hbase : files.base p with
  | error e =>
    rw [hbase] at h
    cases h
  | ok start =>
    rw [hbase] at h
    exact ⟨start, rfl, h⟩

/-! ## Paths with the same steps -/

/-- The steps lead where the pieces lead. -/
theorem follow_filterMap (h : files.follow trail pieces = .ok trail') :
    files.follow trail ((pieces.filterMap Path.later?).map Path.Component.piece) = .ok trail' := by
  induction pieces generalizing trail with
  | nil => exact h
  | cons piece rest ih =>
    obtain ⟨next, hturn, hrest⟩ := exists_turn h
    by_cases hnothing : piece = "" ∨ piece = "."
    · have hlater : Path.later? piece = none := by simp [Path.later?, hnothing]
      rw [turn_of_folder (isFile_of_turn hturn) hnothing] at hturn
      obtain rfl := Except.ok.inj hturn
      rw [List.filterMap_cons_none hlater]
      exact ih hrest
    · have hlater : ∃ step, Path.later? piece = some step ∧ step.piece = piece := by
        by_cases hup : piece = ".."
        · exact ⟨.up, by simp [Path.later?, hup], hup.symm⟩
        · exact ⟨.name piece, by simp_all [Path.later?], rfl⟩
      obtain ⟨step, hstep, hpiece⟩ := hlater
      rw [List.filterMap_cons_some hstep, List.map_cons, hpiece, follow_cons, hturn]
      exact ih hrest

theorem follow_components (h : files.follow trail p.segments = .ok trail') :
    files.follow trail (p.components.map Path.Component.piece) = .ok trail' := by
  have hlater := follow_filterMap h
  obtain ⟨piece, rest, hsegments⟩ := List.exists_cons_of_ne_nil p.segments_ne_nil
  rw [hsegments] at h
  obtain ⟨next, hturn, -⟩ := exists_turn h
  have hfolder := isFile_of_turn hturn
  have hroot : files.turn trail Path.Component.root.piece = .ok trail :=
    turn_of_folder hfolder (.inl rfl)
  have hhere : files.turn trail Path.Component.here.piece = .ok trail :=
    turn_of_folder hfolder (.inr rfl)
  rw [Path.components_eq, List.map_append, Path.front]
  split
  · rw [List.map_singleton, List.singleton_append, follow_cons, hroot]
    exact hlater
  · split
    · rw [List.map_singleton, List.singleton_append, follow_cons, hhere]
      exact hlater
    · exact hlater

theorem base_congr (h : p.isAbsolute = q.isAbsolute) : files.base p = files.base q := by
  unfold base
  rw [h]

/-- Where the steps of a path go on with names behind those of another path, the names lead on from
there. -/
theorem follow_of_components (hp : files.trail p = .ok trail) (hq : files.trail q = .ok trail')
    (h : q.components = p.components ++ names.map .name) :
    files.follow trail names = .ok trail' := by
  obtain ⟨-, start, hstart, hsteps⟩ := exists_base hp
  obtain ⟨-, start', hstart', hsteps'⟩ := exists_base hq
  have habsolute : q.isAbsolute = p.isAbsolute := by
    rw [Bool.eq_iff_iff, ← Path.root_mem_iff, ← Path.root_mem_iff, h]
    simp
  rw [base_congr habsolute, hstart] at hstart'
  obtain rfl := Except.ok.inj hstart'
  have hpieces : (names.map Path.Component.name).map Path.Component.piece = names := by
    rw [List.map_map]
    exact List.map_id names
  have hall := follow_components hsteps'
  rwa [h, List.map_append, hpieces, follow_append_of_ok (follow_components hsteps)] at hall

/-! ## Joined names -/

/-- The pieces without what is behind a slash at the end lead as far. -/
theorem follow_stem (h : files.follow start p.segments = .ok trail) :
    files.follow start p.stem = .ok trail := by
  rcases p.segments_eq_stem with hstem | hstem
  · rwa [← hstem]
  · rw [hstem, follow_append] at h
    cases hfollow : files.follow start p.stem with
    | error e =>
      rw [hfollow] at h
      cases h
    | ok next =>
      rw [hfollow] at h
      obtain ⟨last, hturn, hlast⟩ := exists_turn h
      rw [turn_of_folder (isFile_of_turn hturn) (.inl rfl)] at hturn
      obtain rfl := Except.ok.inj hturn
      exact hlast

/-- Names that are joined to a path lead on from where it leads. -/
theorem trail_foldl_join (hp : files.trail p = .ok trail)
    (hnames : ∀ name ∈ names, Path.IsName name) :
    files.trail (names.foldl Path.join p) = files.follow trail names := by
  obtain ⟨htext, start, hstart, hsteps⟩ := exists_base hp
  by_cases hne : names = []
  · rw [hne, List.foldl_nil, hp, follow_nil]
  · rw [trail_eq (Path.foldl_join_ne htext hnames), Path.segments_foldl_join htext hnames hne,
      base_congr (Path.isAbsolute_foldl_join htext hnames), hstart]
    exact follow_append_of_ok (follow_stem hsteps) names

/-! ## What a walk lists -/

theorem mem_filesAmong {skip : String → Bool} :
    q ∈ Entry.filesAmong skip p members ↔
      ∃ e ∈ members, skip e.name = false ∧ q ∈ e.filesFrom skip (p.join e.name) := by
  induction members with
  | nil => simp [Entry.filesAmong]
  | cons e members ih =>
    rw [Entry.filesAmong, List.mem_append, ih, List.exists_mem_cons_iff]
    cases skip e.name <;> simp

theorem turn_of_isName (hcurrent : files.current trail = .folder here members)
    (hname : Path.IsName name) :
    files.turn trail name =
      match members.find? fun e => e.name == name with
      | some e => .ok (e :: trail)
      | none => .error .notFound := by
  simp [turn, hcurrent, hname.nonempty, hname.here, hname.up]

/-- Among members of distinct names a name leads to the one that has it. -/
theorem turn_of_mem (hcurrent : files.current trail = .folder here members)
    (hdistinct : (members.map Entry.name).Nodup) (he : e ∈ members) (hname : Path.IsName e.name) :
    files.turn trail e.name = .ok (e :: trail) := by
  have hsome : (members.find? fun f => f.name == e.name).isSome = true :=
    List.find?_isSome.2 ⟨e, he, beq_self_eq_true _⟩
  obtain ⟨f, hf⟩ := Option.isSome_iff_exists.1 hsome
  obtain rfl : f = e := List.inj_on_of_nodup_map hdistinct (List.mem_of_find?_eq_some hf) he
    (by simpa using List.find?_some hf)
  rw [turn_of_isName hcurrent hname, hf]

theorem exists_of_turn (hcurrent : files.current trail = .folder here members)
    (hname : Path.IsName name) (h : files.turn trail name = .ok trail') :
    ∃ e ∈ members, e.name = name ∧ trail' = e :: trail := by
  rw [turn_of_isName hcurrent hname] at h
  split at h
  · next e hfound =>
    exact ⟨e, List.mem_of_find?_eq_some hfound, by simpa using List.find?_some hfound,
      (Except.ok.inj h).symm⟩
  · cases h

/-- A walk lists the files that can be reached by names it does not skip, each as the path of these
names. -/
theorem mem_filesFrom {skip : String → Bool} (he : e.Proper) (hcurrent : files.current trail = e) :
    q ∈ e.filesFrom skip p ↔
      ∃ names last, (∀ name ∈ names, Path.IsName name ∧ skip name = false) ∧
        files.follow trail names = .ok last ∧ (files.current last).isFile = true ∧
        q = names.foldl Path.join p := by
  induction he generalizing trail p with
  | file name content =>
    rw [Entry.filesFrom, List.mem_singleton]
    constructor
    · rintro rfl
      exact ⟨[], trail, nofun, rfl, by rw [hcurrent]; rfl, rfl⟩
    · rintro ⟨names, last, -, hfollow, -, rfl⟩
      cases names with
      | nil => rfl
      | cons name rest =>
        obtain ⟨next, hturn, -⟩ := exists_turn hfollow
        have hfile := isFile_of_turn hturn
        rw [hcurrent] at hfile
        cases hfile
  | @folder here members named distinct proper ih =>
    rw [Entry.filesFrom, mem_filesAmong]
    constructor
    · rintro ⟨e, he, hskip, hq⟩
      have hcurrent' : files.current (e :: trail) = e := rfl
      obtain ⟨names, last, hnames, hfollow, hfile, rfl⟩ := (ih e he hcurrent').1 hq
      refine ⟨e.name :: names, last, List.forall_mem_cons.2 ⟨⟨named e he, hskip⟩, hnames⟩, ?_,
        hfile, rfl⟩
      rw [follow_cons, turn_of_mem hcurrent distinct he (named e he)]
      exact hfollow
    · rintro ⟨names, last, hnames, hfollow, hfile, rfl⟩
      cases names with
      | nil =>
        obtain rfl := Except.ok.inj hfollow
        rw [hcurrent] at hfile
        cases hfile
      | cons name rest =>
        obtain ⟨⟨hname, hskip⟩, hrest⟩ := List.forall_mem_cons.1 hnames
        obtain ⟨next, hturn, hfollow⟩ := exists_turn hfollow
        obtain ⟨e, he, rfl, rfl⟩ := exists_of_turn hcurrent hname hturn
        exact ⟨e, he, hskip, (ih e he rfl).2 ⟨rest, last, hrest, hfollow, hfile, rfl⟩⟩

/-! ## Proper trees -/

theorem proper_current (hroot : files.root.Proper) (htrail : ∀ e ∈ trail, e.Proper) :
    (files.current trail).Proper := by
  cases trail with
  | nil => exact hroot
  | cons e trail => exact htrail e List.mem_cons_self

theorem proper_of_turn (hroot : files.root.Proper) (htrail : ∀ e ∈ trail, e.Proper)
    (h : files.turn trail piece = .ok trail') : ∀ e ∈ trail', e.Proper := by
  have hproper := proper_current hroot htrail
  unfold turn at h
  cases hcurrent : files.current trail with
  | file name content =>
    rw [hcurrent] at h
    cases h
  | folder name members =>
    rw [hcurrent] at h hproper
    simp only at h
    split at h
    · obtain rfl := Except.ok.inj h
      exact htrail
    · split at h
      · obtain rfl := Except.ok.inj h
        exact fun e he => htrail e (List.mem_of_mem_drop he)
      · split at h
        · next e hfound =>
          obtain rfl := Except.ok.inj h
          cases hproper with
          | folder _ _ proper =>
            exact List.forall_mem_cons.2 ⟨proper e (List.mem_of_find?_eq_some hfound), htrail⟩
        · cases h

/-- Of a proper tree everything that pieces lead to is proper. -/
theorem proper_of_follow (hroot : files.root.Proper) (htrail : ∀ e ∈ trail, e.Proper)
    (h : files.follow trail pieces = .ok trail') : ∀ e ∈ trail', e.Proper := by
  induction pieces generalizing trail with
  | nil =>
    obtain rfl := Except.ok.inj h
    exact htrail
  | cons piece rest ih =>
    obtain ⟨next, hturn, hrest⟩ := exists_turn h
    exact ih (proper_of_turn hroot htrail hturn) hrest

/-- Of a proper tree the entry at any path is proper. -/
theorem proper_of_trail (hroot : files.root.Proper) (h : files.trail p = .ok trail) :
    (files.current trail).Proper := by
  obtain ⟨-, start, hstart, hsteps⟩ := exists_base h
  have hproper : ∀ e ∈ start, e.Proper := by
    unfold base at hstart
    split at hstart
    · obtain rfl := Except.ok.inj hstart
      exact nofun
    · exact proper_of_follow hroot (List.forall_mem_nil _) hstart
  exact proper_current hroot (proper_of_follow hroot hproper hsteps)

/-! ## Files below a folder -/

theorem hasFile_iff : files.hasFile p = true ↔
    ∃ trail, files.trail p = .ok trail ∧ (files.current trail).isFile = true := by
  unfold hasFile entry
  cases files.trail p <;> simp [Except.map]

theorem has_iff : files.has p = true ↔ ∃ trail, files.trail p = .ok trail := by
  unfold has entry
  cases files.trail p <;> simp [Except.map]

/-- What a walk from the folder at a path lists are files, some steps below the path. -/
theorem components_of_mem_filesFrom {skip : String → Bool} (hroot : files.root.Proper)
    (hp : files.trail p = .ok trail) (hfolder : (files.current trail).isFile = false)
    (hq : q ∈ (files.current trail).filesFrom skip p) :
    files.hasFile q = true ∧ ∃ names : List String, q.components = p.components ++ names.map .name ∧
      names ≠ [] ∧ ∀ name ∈ names, skip name = false := by
  obtain ⟨names, last, hnames, hfollow, hfile, rfl⟩ :=
    (mem_filesFrom (proper_of_trail hroot hp) rfl).1 hq
  have hname : ∀ name ∈ names, Path.IsName name := fun name h => (hnames name h).1
  refine ⟨hasFile_iff.2 ⟨last, ?_, hfile⟩, names, ?_, ?_, fun name h => (hnames name h).2⟩
  · rw [trail_foldl_join hp hname, hfollow]
  · exact Path.components_foldl_join (exists_base hp).1 hname
  · rintro rfl
    obtain rfl := Except.ok.inj hfollow
    rw [hfolder] at hfile
    cases hfile

/-- Every file in steps below the path is listed, perhaps in another spelling. -/
theorem exists_mem_filesFrom {skip : String → Bool} (hroot : files.root.Proper)
    (hp : files.trail p = .ok trail) (hq : files.hasFile q = true)
    (hsteps : q.components = p.components ++ names.map .name)
    (hseen : ∀ name ∈ names, skip name = false) :
    ∃ r ∈ (files.current trail).filesFrom skip p, r.components = q.components := by
  obtain ⟨last, htrail, hfile⟩ := hasFile_iff.1 hq
  have hname : ∀ name ∈ names, Path.IsName name := by
    intro name hmem
    apply Path.isName_of_mem (p := q)
    rw [hsteps]
    exact List.mem_append_right _ (List.mem_map_of_mem hmem)
  refine ⟨names.foldl Path.join p, (mem_filesFrom (proper_of_trail hroot hp) rfl).2 ?_, ?_⟩
  · exact ⟨names, last, fun name h => ⟨hname name h, hseen name h⟩,
      follow_of_components hp htrail hsteps, hfile, rfl⟩
  · rw [Path.components_foldl_join (exists_base hp).1 hname, hsteps]

end Files

end Polyglot
