import Polyglot.Proofs.Config.Selection
import Polyglot.Proofs.Files.Walk
import Polyglot.Proofs.Path.Order

/-!
# The files that arguments stand for

An argument stands for the file it names, or, if it names a folder, for the files below it that
have a known extension and no hidden name or package folder on the way (`Stands`). What is found for
some arguments is exactly what they stand for, in the order of paths, each path once
(`Files.lintable_exact`). So it does not matter in which order the arguments are given, nor how
often, and an argument where there is nothing is an error.
-/

set_option autoImplicit false

namespace Polyglot

namespace Files

variable {files : Files} {extensions : List String} {arguments : List Path} {p q : Path}

/-- The argument stands for a file: it names the file, or a folder which the file is below. In the
second case the file has a known extension, and no step from the folder to it begins with a dot or
is a package folder. -/
inductive Stands (files : Files) (extensions : List String) (p : Path) : Path → Prop where
  | named (file : files.hasFile p = true) : Stands files extensions p p
  | below {q : Path} {names : List String} (folder : files.hasFile p = false)
      (steps : q.components = p.components ++ names.map .name) (strict : names ≠ [])
      (seen : ∀ name ∈ names, name.toList.head? ≠ some '.' ∧ name ≠ "node_modules")
      (file : files.hasFile q = true) (known : RuleDefinition.HasExtension extensions q) :
      Stands files extensions p q

theorem skips_eq_false_iff {name : String} :
    skips name = false ↔ name.toList.head? ≠ some '.' ∧ name ≠ "node_modules" := by
  simp [skips]

theorem hasKnownExtension_iff :
    hasKnownExtension extensions q = true ↔ RuleDefinition.HasExtension extensions q :=
  RuleDefinition.hasExtension_iff

/-- The extension is that of the last step. -/
theorem hasExtension_congr (h : p.components = q.components) :
    RuleDefinition.HasExtension extensions p ↔ RuleDefinition.HasExtension extensions q := by
  unfold RuleDefinition.HasExtension Path.extension? Path.fileName?
  rw [h]

/-! ## One argument -/

theorem filesAt?_eq_none_iff (extensions : List String) :
    files.filesAt? extensions p = none ↔ files.has p = false := by
  unfold filesAt? has
  cases files.entry p with
  | error e => simp
  | ok e => cases e <;> simp

theorem filesAt?_of_file (h : files.hasFile p = true) :
    files.filesAt? extensions p = some [p] := by
  unfold hasFile at h
  unfold filesAt?
  cases hentry : files.entry p with
  | error e =>
    rw [hentry] at h
    cases h
  | ok e =>
    rw [hentry] at h
    cases e with
    | file name content => rfl
    | folder name members => cases h

theorem filesAt?_of_folder {trail : List Entry} (htrail : files.trail p = .ok trail)
    (hfolder : (files.current trail).isFile = false) :
    files.filesAt? extensions p =
      some (((files.current trail).filesFrom skips p).filter (hasKnownExtension extensions)) := by
  have hentry : files.entry p = .ok (files.current trail) := by
    rw [entry, htrail]
    rfl
  unfold filesAt?
  rw [hentry]
  cases hcurrent : files.current trail with
  | file name content =>
    rw [hcurrent] at hfolder
    cases hfolder
  | folder name members => rfl

/-- What is found at an argument is what it stands for. -/
theorem stands_of_filesAt? (hfiles : files.root.Proper) {found : List Path}
    (h : files.filesAt? extensions p = some found) :
    (∀ q ∈ found, files.Stands extensions p q) ∧
      ∀ q, files.Stands extensions p q → ∃ r ∈ found, r.components = q.components := by
  have hhas : files.has p = true := by
    rw [← Bool.not_eq_false, ← filesAt?_eq_none_iff, h]
    exact nofun
  obtain ⟨trail, htrail⟩ := has_iff.1 hhas
  cases hfile : files.hasFile p with
  | true =>
    rw [filesAt?_of_file hfile] at h
    obtain rfl := Option.some.inj h
    refine ⟨List.forall_mem_singleton.2 (.named hfile), fun q hq => ?_⟩
    cases hq with
    | named => exact ⟨p, List.mem_cons_self, rfl⟩
    | below folder =>
      rw [hfile] at folder
      cases folder
  | false =>
    have hfolder : (files.current trail).isFile = false := by
      rw [← Bool.not_eq_true]
      intro hcurrent
      rw [hasFile_iff.2 ⟨trail, htrail, hcurrent⟩] at hfile
      cases hfile
    rw [filesAt?_of_folder htrail hfolder] at h
    obtain rfl := Option.some.inj h
    constructor
    · intro q hq
      obtain ⟨hlisted, hknown⟩ := List.mem_filter.1 hq
      obtain ⟨hq, names, hsteps, hne, hseen⟩ :=
        components_of_mem_filesFrom hfiles htrail hfolder hlisted
      exact .below hfile hsteps hne (fun name h => skips_eq_false_iff.1 (hseen name h)) hq
        (hasKnownExtension_iff.1 hknown)
    · intro q hq
      cases hq with
      | named file =>
        rw [hfile] at file
        cases file
      | below _ steps strict seen file known =>
        obtain ⟨r, hr, hcomponents⟩ := exists_mem_filesFrom hfiles htrail file steps
          fun name h => skips_eq_false_iff.2 (seen name h)
        refine ⟨r, List.mem_filter.2 ⟨hr, hasKnownExtension_iff.2 ?_⟩, hcomponents⟩
        exact (hasExtension_congr hcomponents).2 known

/-! ## Some arguments -/

theorem gather_cons (files : Files) (extensions : List String) (p : Path) (rest : List Path) :
    files.gather extensions (p :: rest) =
      match files.filesAt? extensions p with
      | none => .error p
      | some found => (files.gather extensions rest).map (found ++ ·) := rfl

/-- What is found at some arguments, one after the other. -/
def gathered (files : Files) (extensions : List String) (arguments : List Path) : List Path :=
  arguments.flatMap fun p => (files.filesAt? extensions p).getD []

theorem gather_of_has (h : ∀ p ∈ arguments, files.has p = true) :
    files.gather extensions arguments = .ok (files.gathered extensions arguments) := by
  induction arguments with
  | nil => rfl
  | cons p rest ih =>
    obtain ⟨hp, hrest⟩ := List.forall_mem_cons.1 h
    have hcons : files.gathered extensions (p :: rest) =
        (files.filesAt? extensions p).getD [] ++ files.gathered extensions rest := List.flatMap_cons
    rw [gather_cons, ih hrest, hcons]
    cases hfound : files.filesAt? extensions p with
    | none =>
      rw [(filesAt?_eq_none_iff extensions).1 hfound] at hp
      cases hp
    | some found => rfl

theorem mem_gathered_iff :
    q ∈ files.gathered extensions arguments ↔
      ∃ p ∈ arguments, ∃ found, files.filesAt? extensions p = some found ∧ q ∈ found := by
  unfold gathered
  rw [List.mem_flatMap]
  refine exists_congr fun p => and_congr_right fun _ => ?_
  cases files.filesAt? extensions p <;> simp

theorem stands_of_mem_gathered (hfiles : files.root.Proper)
    (hq : q ∈ files.gathered extensions arguments) :
    ∃ p ∈ arguments, files.Stands extensions p q := by
  obtain ⟨p, hp, found, hfound, hq⟩ := mem_gathered_iff.1 hq
  exact ⟨p, hp, (stands_of_filesAt? hfiles hfound).1 q hq⟩

theorem exists_mem_gathered (hfiles : files.root.Proper) (hp : p ∈ arguments)
    (hhas : files.has p = true) (hq : files.Stands extensions p q) :
    ∃ r ∈ files.gathered extensions arguments, r.components = q.components := by
  cases hfound : files.filesAt? extensions p with
  | none =>
    rw [(filesAt?_eq_none_iff extensions).1 hfound] at hhas
    cases hhas
  | some found =>
    obtain ⟨r, hr, hcomponents⟩ := (stands_of_filesAt? hfiles hfound).2 q hq
    exact ⟨r, mem_gathered_iff.2 ⟨p, hp, found, hfound, hr⟩, hcomponents⟩

/-- What is found at one argument, or the argument where there is nothing. -/
def filesAt (files : Files) (extensions : List String) (p : Path) : Except Path (List Path) :=
  match files.filesAt? extensions p with
  | none => .error p
  | some found => .ok found

theorem exists_filesAt_iff :
    (∃ found, files.filesAt extensions p = .ok found) ↔ files.has p = true := by
  rw [← Bool.not_eq_false, ← filesAt?_eq_none_iff extensions]
  unfold filesAt
  cases files.filesAt? extensions p <;> simp

theorem filesAt_eq_error_iff :
    files.filesAt extensions p = .error q ↔ p = q ∧ files.has p = false := by
  rw [← filesAt?_eq_none_iff extensions]
  unfold filesAt
  cases files.filesAt? extensions p <;> simp

theorem gather_eq_mapM (files : Files) (extensions : List String) (arguments : List Path) :
    files.gather extensions arguments =
      (arguments.mapM (files.filesAt extensions)).map List.flatten := by
  induction arguments with
  | nil => rfl
  | cons p rest ih =>
    rw [gather_cons, ih, List.mapM_cons, filesAt]
    cases files.filesAt? extensions p with
    | none => rfl
    | some found => cases rest.mapM (files.filesAt extensions) <;> rfl

/-- The first argument where there is nothing is the error. -/
theorem gather_eq_error_iff (extensions : List String) :
    files.gather extensions arguments = .error p ↔
      ∃ before behind, arguments = before ++ p :: behind ∧
        (∀ b ∈ before, files.has b = true) ∧ files.has p = false := by
  have hmap : files.gather extensions arguments = .error p ↔
      arguments.mapM (files.filesAt extensions) = .error p := by
    rw [gather_eq_mapM]
    cases arguments.mapM (files.filesAt extensions) <;> simp [Except.map]
  rw [hmap, mapM_eq_error_iff]
  simp only [exists_filesAt_iff, filesAt_eq_error_iff]
  constructor
  · rintro ⟨before, a, behind, hsplit, hbefore, rfl, hp⟩
    exact ⟨before, behind, hsplit, hbefore, hp⟩
  · rintro ⟨before, behind, hsplit, hbefore, hp⟩
    exact ⟨before, p, behind, hsplit, hbefore, rfl, hp⟩

theorem lintable_of_has (h : ∀ p ∈ arguments, files.has p = true) :
    files.lintable extensions arguments =
      .ok (Path.sorted (files.gathered extensions arguments)) := by
  rw [lintable, gather_of_has h]
  rfl

theorem lintable_eq_error_iff :
    files.lintable extensions arguments = .error p ↔
      ∃ before behind, arguments = before ++ p :: behind ∧
        (∀ b ∈ before, files.has b = true) ∧ files.has p = false := by
  rw [← gather_eq_error_iff extensions, lintable]
  cases files.gather extensions arguments <;> simp [Except.map]

/-- There is an error if there is nothing at some argument. -/
theorem exists_lintable_error_iff :
    (∃ p, files.lintable extensions arguments = .error p) ↔
      ∃ p ∈ arguments, files.has p = false := by
  constructor
  · rintro ⟨p, hp⟩
    obtain ⟨before, behind, rfl, -, hhas⟩ := lintable_eq_error_iff.1 hp
    exact ⟨p, List.mem_append_right _ List.mem_cons_self, hhas⟩
  · rintro ⟨p, hp, hhas⟩
    cases hresult : files.lintable extensions arguments with
    | error e => exact ⟨e, rfl⟩
    | ok found =>
      have hfound : ∃ lists, arguments.mapM (files.filesAt extensions) = .ok lists := by
        rw [lintable, gather_eq_mapM] at hresult
        cases hlists : arguments.mapM (files.filesAt extensions) with
        | ok lists => exact ⟨lists, rfl⟩
        | error e =>
          rw [hlists] at hresult
          cases hresult
      rw [exists_filesAt_iff.1 (exists_mapM_iff.1 hfound p hp)] at hhas
      cases hhas

/-- The files that are found for some arguments. An argument where there is nothing is an error, the
first one. Otherwise the files come in the order of their paths, each once, and they are exactly
those that an argument stands for. Arguments that are the same but for order and repetition lead to
the same paths, and where none of the paths is spelled in two ways, to the same spelling. -/
theorem lintable_exact {files : Files} (hfiles : files.root.Proper) (extensions : List String)
    (arguments : List Path) :
    ((∃ p, files.lintable extensions arguments = .error p) ↔
      ∃ p ∈ arguments, files.has p = false) ∧
    (∀ p, files.lintable extensions arguments = .error p ↔
      ∃ before behind, arguments = before ++ p :: behind ∧
        (∀ b ∈ before, files.has b = true) ∧ files.has p = false) ∧
    ((∀ p ∈ arguments, files.has p = true) →
      ∃ found, files.lintable extensions arguments = .ok found ∧
        found.Pairwise (fun p q => p.compare q = .lt) ∧
        (∀ q ∈ found, ∃ p ∈ arguments, files.Stands extensions p q) ∧
        (∀ p ∈ arguments, ∀ q, files.Stands extensions p q → ∃ r ∈ found, r.same q = true) ∧
        ∀ arguments', (∀ p, p ∈ arguments' ↔ p ∈ arguments) →
          ∃ found', files.lintable extensions arguments' = .ok found' ∧
            found'.map (·.components) = found.map (·.components) ∧
            (Path.SpelledOnce (files.gathered extensions arguments) → found' = found)) := by
  refine ⟨exists_lintable_error_iff, fun p => lintable_eq_error_iff, fun hhas => ?_⟩
  refine ⟨_, lintable_of_has hhas, Path.pairwise_sorted _, ?_, ?_, ?_⟩
  · intro q hq
    exact stands_of_mem_gathered hfiles (Path.mem_of_mem_sorted hq)
  · intro p hp q hq
    obtain ⟨r, hr, hcomponents⟩ := exists_mem_gathered hfiles hp (hhas p hp) hq
    obtain ⟨x, hx, hsame⟩ := Path.exists_same_sorted hr
    exact ⟨x, hx, Path.same_iff.2 ((Path.same_iff.1 hsame).trans hcomponents)⟩
  · intro arguments' hsame
    have hhas' : ∀ p ∈ arguments', files.has p = true := fun p hp => hhas p ((hsame p).1 hp)
    have hgathered : ∀ q, q ∈ files.gathered extensions arguments ↔
        q ∈ files.gathered extensions arguments' := by
      intro q
      simp only [mem_gathered_iff, hsame]
    refine ⟨_, lintable_of_has hhas', ?_, fun hspelled => ?_⟩
    · apply Path.steps_sorted
      intro steps
      simp only [List.mem_map, hgathered]
    · exact (Path.sorted_congr hgathered hspelled).symm

namespace Sample

/-- A folder with style sheets in it, some of them below a hidden folder, a package folder and a
folder that is neither. -/
def site : Files :=
  ⟨.folder ""
    [.folder "site"
      [.file "b.CSS" [], .file "a.css" [], .folder ".git" [.file "x.css" []],
        .folder "node_modules" [.file "y.css" []],
        .folder "lib" [.file "c.css" [], .file "n.txt" []]],
      .file "notes.txt" []], []⟩

/-- A folder, two folders in it, and twice a file. -/
def places : List Path :=
  [⟨"site/lib"⟩, ⟨"notes.txt"⟩, ⟨"site"⟩, ⟨"site/.git"⟩, ⟨"notes.txt"⟩]

theorem proper_site : site.root.Proper := by
  refine .folder (by decide) (by decide) (List.forall_mem_cons.2 ⟨?_, ?_⟩)
  · refine .folder (by decide) (by decide) ?_
    simp only [List.forall_mem_cons]
    refine ⟨.file _ _, .file _ _, ?_, ?_, ?_, List.forall_mem_nil _⟩ <;>
      refine Entry.proper_of_files ?_ ?_ ?_ <;> decide
  · exact List.forall_mem_singleton.2 (.file _ _)

end Sample

/-- The style sheets of the folder are found, and that of the hidden folder, which is named itself,
but not that of the package folder. The arguments can be turned round. -/
theorem lintable_site :
    (Sample.site.root.Proper ∧ ∀ p ∈ Sample.places, Sample.site.has p = true) ∧
    (∃ found, Sample.site.lintable ["css"] Sample.places = .ok found ∧
      found.Pairwise (fun p q => p.compare q = .lt) ∧
      (∃ r ∈ found, r.same ⟨"site//b.CSS"⟩ = true) ∧
      (∃ r ∈ found, r.same ⟨"site/.git/x.css"⟩ = true) ∧
      ⟨"site/node_modules/y.css"⟩ ∉ found ∧
      Sample.site.lintable ["css"] Sample.places.reverse = .ok found) ∧
    Sample.site.lintable ["css"] [⟨"site"⟩, ⟨"gone"⟩, ⟨"lost"⟩] = .error ⟨"gone"⟩ := by
  have hhas : ∀ p ∈ Sample.places, Sample.site.has p = true := by decide +kernel
  have hspelled : Path.SpelledOnce (Sample.site.gathered ["css"] Sample.places) := by
    unfold Path.SpelledOnce
    decide +kernel
  have hsheet : Sample.site.Stands ["css"] ⟨"site"⟩ ⟨"site//b.CSS"⟩ := by
    have hsteps : Path.components ⟨"site//b.CSS"⟩ =
        Path.components ⟨"site"⟩ ++ ["b.CSS"].map .name := by decide +kernel
    refine .below ?_ hsteps ?_ ?_ ?_ (hasKnownExtension_iff.1 ?_) <;> decide +kernel
  have hhidden : Sample.site.Stands ["css"] ⟨"site/.git"⟩ ⟨"site/.git/x.css"⟩ := by
    have hsteps : Path.components ⟨"site/.git/x.css"⟩ =
        Path.components ⟨"site/.git"⟩ ++ ["x.css"].map .name := by decide +kernel
    refine .below ?_ hsteps ?_ ?_ ?_ (hasKnownExtension_iff.1 ?_) <;> decide +kernel
  obtain ⟨-, -, hfound⟩ := lintable_exact Sample.proper_site ["css"] Sample.places
  obtain ⟨-, hmissing, -⟩ :=
    lintable_exact Sample.proper_site ["css"] [⟨"site"⟩, ⟨"gone"⟩, ⟨"lost"⟩]
  obtain ⟨found, hresult, hascends, -, hall, hsame⟩ := hfound hhas
  obtain ⟨found', hresult', -, hequal⟩ := hsame Sample.places.reverse fun p => List.mem_reverse
  obtain rfl := hequal hspelled
  refine ⟨⟨Sample.proper_site, hhas⟩, ⟨found', hresult, hascends, ?_, ?_, ?_, hresult'⟩, ?_⟩
  · exact hall ⟨"site"⟩ (by decide) _ hsheet
  · exact hall ⟨"site/.git"⟩ (by decide) _ hhidden
  · intro hmem
    obtain rfl := Except.ok.inj ((lintable_of_has hhas).symm.trans hresult)
    exact absurd (Path.mem_of_mem_sorted hmem) (by decide +kernel)
  · exact (hmissing ⟨"gone"⟩).2 ⟨[⟨"site"⟩], [⟨"lost"⟩], rfl, by decide +kernel, by decide +kernel⟩

end Files

end Polyglot
