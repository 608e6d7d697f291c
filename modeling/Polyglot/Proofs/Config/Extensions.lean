import Mathlib
import Polyglot.Proofs.Command.Discovery

/-!
# Extensions of a catalog

An extension is looked for in four places: among the root chains of a catalog, in the list of all
its extensions, in what a rule keeps of its chain, and by the walk that finds the files. The list is
in lower case, sorted, each extension once (`mem_extensions_iff`, `pairwise_extensions`). In all
other places extensions stand as they were written, and are compared in any case.

Still all of them agree. A path has a known extension exactly if there is a root chain for it
(`hasKnownExtension_eq`), and there is one for every path that a rule selects whose chain has
extensions (`isSome_rootForPath?_of_selection`). So a walk finds every file that such a rule selects
(`extensions_agree`).
-/

set_option autoImplicit false

namespace Polyglot

/-- The extension is one of those listed, in any case. -/
def ListsExtension (extensions : List String) (ext : String) : Prop :=
  ∃ known ∈ extensions, Text.lower known = Text.lower ext

theorem listsExtension_iff {extensions : List String} {ext : String} :
    listsExtension extensions ext = true ↔ ListsExtension extensions ext := by
  simp only [listsExtension, ListsExtension, List.any_eq_true, Text.sameLetters, beq_iff_eq]

theorem Text.lower_lower (s : String) : lower (lower s) = lower s := by
  simp [lower, Function.comp_def]

namespace Catalog

variable {c : Catalog} {path : Path} {ext : String} {d : ChainDefinition}

/-! ## Each extension once -/

theorem mem_unique {a : String} {l : List String} : a ∈ unique l ↔ a ∈ l := by
  fun_induction unique l with
  | case1 => rfl
  | case2 b => rfl
  | case3 b b' rest heq ih =>
    obtain rfl := eq_of_beq heq
    simp [ih]
  | case4 b b' rest hne ih => simp [ih]

/-- What ascends, ascends strictly with each member once. -/
theorem pairwise_unique {l : List String} (h : l.Pairwise (· ≤ ·)) :
    (unique l).Pairwise (· < ·) := by
  fun_induction unique l with
  | case1 => exact .nil
  | case2 a => exact List.pairwise_singleton _ _
  | case3 a b rest heq ih => exact ih h.of_cons
  | case4 a b rest hne ih =>
    obtain ⟨ha, hrest⟩ := List.pairwise_cons.1 h
    have hlt : a < b := Std.lt_of_le_of_ne (ha b List.mem_cons_self) (by simpa using hne)
    refine List.pairwise_cons.2 ⟨fun e he => ?_, ih hrest⟩
    rcases List.mem_cons.1 (mem_unique.1 he) with rfl | he
    · exact hlt
    · exact Std.lt_of_lt_of_le hlt ((List.pairwise_cons.1 hrest).1 e he)

/-- The extensions of a catalog are those of its chains in lower case. -/
theorem mem_extensions_iff :
    ext ∈ c.extensions ↔ ∃ d ∈ c.definitions, ∃ known ∈ d.extensions, Text.lower known = ext := by
  simp only [extensions, mem_unique, List.mem_mergeSort, List.mem_map, List.mem_flatMap, roots,
    List.mem_filter]
  constructor
  · rintro ⟨known, ⟨d, ⟨hd, -⟩, hknown⟩, rfl⟩
    exact ⟨d, hd, known, hknown, rfl⟩
  · rintro ⟨d, hd, known, hknown, rfl⟩
    refine ⟨known, ⟨d, ⟨hd, ?_⟩, hknown⟩, rfl⟩
    simpa using List.ne_nil_of_mem hknown

theorem pairwise_extensions (c : Catalog) : c.extensions.Pairwise (· < ·) := by
  apply pairwise_unique
  have htrans (a b e : String) (hab : decide (a ≤ b) = true) (hbe : decide (b ≤ e) = true) :
      decide (a ≤ e) = true :=
    decide_eq_true (String.le_trans (of_decide_eq_true hab) (of_decide_eq_true hbe))
  have htotal (a b : String) : (decide (a ≤ b) || decide (b ≤ a)) = true := by
    simpa using String.le_total a b
  simpa only [decide_eq_true_eq] using List.pairwise_mergeSort htrans htotal _

/-! ## The root chain for an extension -/

theorem listsExtension_extensions_iff :
    ListsExtension c.extensions ext ↔ Text.lower ext ∈ c.extensions := by
  constructor
  · rintro ⟨known, hknown, hsame⟩
    obtain ⟨d, hd, written, hwritten, rfl⟩ := mem_extensions_iff.1 hknown
    rwa [← hsame, Text.lower_lower]
  · intro h
    exact ⟨_, h, Text.lower_lower ext⟩

/-- A chain that handles an extension has extensions, so nothing is lost by looking at the root
chains only. -/
theorem rootForPath?_eq (h : path.extension? = some ext) :
    c.rootForPath? path = c.definitions.find? fun d => d.handles ext := by
  have hroot (d : ChainDefinition) :
      decide ((!d.extensions.isEmpty) = true ∧ d.handles ext = true) = d.handles ext := by
    rw [Bool.eq_iff_iff, decide_eq_true_eq, and_iff_right_iff_imp]
    intro hhandles
    obtain ⟨known, hknown, -⟩ := listsExtension_iff.1 hhandles
    simpa using List.ne_nil_of_mem hknown
  unfold rootForPath? roots
  rw [h, Option.bind_some, List.find?_filter, funext hroot]

/-- The root chain for an extension is that of the first definition that lists it. -/
theorem rootForPath?_eq_some_iff (h : path.extension? = some ext) :
    c.rootForPath? path = some d ↔
      ∃ before behind, c.definitions = before ++ d :: behind ∧ ListsExtension d.extensions ext ∧
        ∀ b ∈ before, ¬ListsExtension b.extensions ext := by
  simp only [rootForPath?_eq h, List.find?_eq_some_iff_append, ← listsExtension_iff,
    ChainDefinition.handles, Bool.not_eq_true', Bool.not_eq_true]
  constructor
  · rintro ⟨hd, before, behind, hsplit, hbefore⟩
    exact ⟨before, behind, hsplit, hd, hbefore⟩
  · rintro ⟨before, behind, hsplit, hd, hbefore⟩
    exact ⟨hd, before, behind, hsplit, hbefore⟩

theorem isSome_rootForPath?_iff (h : path.extension? = some ext) :
    (c.rootForPath? path).isSome = true ↔ Text.lower ext ∈ c.extensions := by
  rw [rootForPath?_eq h, List.find?_isSome, mem_extensions_iff]
  exact exists_congr fun d => and_congr_right fun _ => listsExtension_iff

/-- The walk knows the extensions for which there is a root chain. -/
theorem hasKnownExtension_eq (c : Catalog) (path : Path) :
    Files.hasKnownExtension c.extensions path = (c.rootForPath? path).isSome := by
  unfold Files.hasKnownExtension
  cases h : path.extension? with
  | none => simp [rootForPath?, h]
  | some ext =>
    rw [Option.any_some, Bool.eq_iff_iff, listsExtension_iff, listsExtension_extensions_iff,
      isSome_rootForPath?_iff h]

/-! ## Rules -/

section Rules

variable {compiler : QueryCompiler} {rule : RuleDefinition} {r : Rule} {name : String}
  {file : FileMeta}

/-- A rule whose chain has extensions selects the paths that have one of them. -/
theorem isSome_selection_iff (h : rule.build compiler c = .ok r) (hname : rule.chain = some name)
    (hd : c.get? name = some d) (hne : d.extensions ≠ []) :
    (r.selector.selection file).isSome = true ↔
      RuleDefinition.HasExtension d.extensions file.path := by
  obtain ⟨choose, target, -, hselection, -, hselector, -⟩ := RuleDefinition.build_ok h
  obtain ⟨plan, hplan, hfollows, -⟩ := RuleDefinition.exists_plan hselection
  have hselects : (choose file).isSome = true ↔ plan.selects file.path := by
    constructor
    · intro hsome
      by_contra hnot
      rw [hfollows.ignored file hnot] at hsome
      cases hsome
    · intro hplanned
      obtain ⟨choice, hchoice, -⟩ := hfollows.selected file hplanned
      exact Option.isSome_of_eq_some hchoice
  rw [hselector]
  refine hselects.trans ?_
  cases hplan with
  | language unnamed =>
    rw [hname] at unnamed
    cases unnamed
  | chain named defined =>
    obtain rfl := Option.some.inj (hname.symm.trans named)
    obtain rfl := Option.some.inj (hd.symm.trans defined)
    exact or_iff_right hne

/-- There is a root chain for what a rule selects whose chain has extensions. It need not be the
chain of the rule. -/
theorem isSome_rootForPath?_of_selection (h : rule.build compiler c = .ok r)
    (hname : rule.chain = some name) (hd : c.get? name = some d) (hne : d.extensions ≠ [])
    (hselects : (r.selector.selection file).isSome = true) :
    (c.rootForPath? file.path).isSome = true := by
  obtain ⟨ext, hext, hlists⟩ := (isSome_selection_iff h hname hd hne).1 hselects
  rw [isSome_rootForPath?_iff hext, mem_extensions_iff]
  exact ⟨d, (mem_of_find? hd).1, hlists⟩

end Rules

end Catalog

/-! ## The walk -/

namespace Files

variable {files : Files} {extensions : List String} {arguments found : List Path} {p q : Path}
  {e : Entry}

theorem mem_filesAt? (he : files.entry p = .ok e) (hq : q ∈ e.filesFrom skips p)
    (hknown : hasKnownExtension extensions q = true) :
    ∃ found, files.filesAt? extensions p = some found ∧ q ∈ found := by
  unfold filesAt?
  rw [he]
  cases e with
  | file name content => exact ⟨_, rfl, hq⟩
  | folder name members => exact ⟨_, rfl, List.mem_filter.2 ⟨hq, hknown⟩⟩

/-- What a walk comes across is found if its extension is known. -/
theorem exists_same_of_lintable (h : files.lintable extensions arguments = .ok found)
    (hp : p ∈ arguments) (he : files.entry p = .ok e) (hq : q ∈ e.filesFrom skips p)
    (hknown : hasKnownExtension extensions q = true) : ∃ r ∈ found, r.same q = true := by
  have hhas : ∀ a ∈ arguments, files.has a = true := by
    intro a ha
    by_contra hnot
    have herror : ∃ missing, files.lintable extensions arguments = .error missing :=
      exists_lintable_error_iff.2 ⟨a, ha, Bool.eq_false_of_not_eq_true hnot⟩
    obtain ⟨missing, hmissing⟩ := herror
    rw [h] at hmissing
    cases hmissing
  rw [lintable_of_has hhas] at h
  obtain rfl := Except.ok.inj h
  exact Path.exists_same_sorted (mem_gathered_iff.2 ⟨p, hp, mem_filesAt? he hq hknown⟩)

end Files

namespace Catalog

/-- Extensions are handled alike everywhere. Those of a catalog ascend strictly, and they are those
of its chains in lower case. For a path with an extension there is a root chain if the extension, in
lower case, is among them, and then it is that of the first definition that lists the extension in
any case. The walk knows the extensions of the paths for which there is a root chain. So there is
one for every path that a rule selects whose chain has extensions, and whatever file the walk comes
across that the rule selects, it finds the file, in a spelling that the rule selects. -/
theorem extensions_agree (c : Catalog) :
    (c.extensions.Pairwise (· < ·) ∧
      ∀ ext, ext ∈ c.extensions ↔
        ∃ d ∈ c.definitions, ∃ known ∈ d.extensions, Text.lower known = ext) ∧
    (∀ (path : Path) (ext : String), path.extension? = some ext →
      ((c.rootForPath? path).isSome = true ↔ Text.lower ext ∈ c.extensions) ∧
      ∀ d, c.rootForPath? path = some d ↔
        ∃ before behind, c.definitions = before ++ d :: behind ∧
          ListsExtension d.extensions ext ∧ ∀ b ∈ before, ¬ListsExtension b.extensions ext) ∧
    (∀ path, Files.hasKnownExtension c.extensions path = (c.rootForPath? path).isSome) ∧
    ∀ (compiler : QueryCompiler) (rule : RuleDefinition) (r : Rule) (name : String)
      (d : ChainDefinition), rule.build compiler c = .ok r → rule.chain = some name →
      c.get? name = some d → d.extensions ≠ [] →
      (∀ file, (r.selector.selection file).isSome = true →
        (c.rootForPath? file.path).isSome = true) ∧
      ∀ (files : Files) (arguments found : List Path),
        files.lintable c.extensions arguments = .ok found →
        ∀ p ∈ arguments, ∀ e, files.entry p = .ok e → ∀ q ∈ e.filesFrom Files.skips p, ∀ bytes,
          (r.selector.selection ⟨q, bytes⟩).isSome = true →
          ∃ q' ∈ found, q'.same q = true ∧ (r.selector.selection ⟨q', bytes⟩).isSome = true := by
  refine ⟨⟨pairwise_extensions c, fun ext => mem_extensions_iff⟩, fun path ext h => ⟨?_, ?_⟩,
    hasKnownExtension_eq c, fun compiler rule r name d h hname hd hne => ⟨?_, ?_⟩⟩
  · exact isSome_rootForPath?_iff h
  · intro d
    exact rootForPath?_eq_some_iff h
  · intro file hselects
    exact isSome_rootForPath?_of_selection h hname hd hne hselects
  · intro files arguments found hfound p hp e he q hq bytes hselects
    have hroot := isSome_rootForPath?_of_selection h hname hd hne hselects
    rw [← hasKnownExtension_eq] at hroot
    obtain ⟨q', hq', hsame⟩ := Files.exists_same_of_lintable hfound hp he hq hroot
    have hext := (isSome_selection_iff h hname hd hne).1 hselects
    rw [← Files.hasExtension_congr (Path.same_iff.1 hsame)] at hext
    exact ⟨q', hq', hsame, (isSome_selection_iff h hname hd hne).2 hext⟩

namespace Sample

/-- Style sheets, which share an extension with pages. -/
def sheet : ChainDefinition :=
  ⟨"sheet", .css, ["Css", "hTm"], [], none, none⟩

/-- Pages, what is nested in them, and style sheets. -/
def shared : Catalog :=
  ⟨[⟨"page", .html, ["HTML", "htm"], ["style"], none, none⟩,
    ⟨"style", .css, [], [], some .htmlStyle, none⟩, sheet]⟩

/-- A rule on style sheets. -/
def onSheet : RuleDefinition :=
  ⟨"on-sheet", none, some "sheet", none, none, "(id) @id", none⟩

/-- Compiles every query. -/
def lenient : QueryCompiler := fun _ _ => .ok ⟨[], [], fun _ => []⟩

/-- A page, and one that is hidden. -/
def pages : Entry :=
  .folder "pages" [.file "Index.HTM" [], .file ".a.htm" []]

/-- A folder with the pages in it. -/
def folder : Files :=
  ⟨.folder "" [pages], []⟩

end Sample

/-- A rule on style sheets selects a page, whose root chain is that of pages. The walk finds it. -/
theorem extensions_agree_shared :
    ∃ r, Sample.onSheet.build Sample.lenient Sample.shared = .ok r ∧
      Sample.onSheet.chain = some "sheet" ∧ Sample.shared.get? "sheet" = some Sample.sheet ∧
      Sample.sheet.extensions ≠ [] ∧ Path.extension? ⟨"pages/Index.HTM"⟩ = some "HTM" ∧
      (r.selector.selection ⟨⟨"pages/Index.HTM"⟩, []⟩).isSome = true ∧
      "htm" ∈ Sample.shared.extensions ∧
      (Sample.shared.rootForPath? ⟨"pages/Index.HTM"⟩).map (·.name) = some "page" ∧
      ∃ found, Sample.folder.lintable Sample.shared.extensions [⟨"pages/"⟩] = .ok found ∧
        ∃ q ∈ found, q.same ⟨"pages/Index.HTM"⟩ = true ∧
          (r.selector.selection ⟨q, []⟩).isSome = true := by
  obtain ⟨r, hbuild⟩ : ∃ r, Sample.onSheet.build Sample.lenient Sample.shared = .ok r := ⟨_, rfl⟩
  have hget : Sample.shared.get? "sheet" = some Sample.sheet := rfl
  have hne : Sample.sheet.extensions ≠ [] := by decide
  have hext : Path.extension? ⟨"pages/Index.HTM"⟩ = some "HTM" := by decide +kernel
  have hselects : (r.selector.selection ⟨⟨"pages/Index.HTM"⟩, []⟩).isSome = true := by
    obtain rfl := Except.ok.inj hbuild
    decide +kernel
  have hroot : (Sample.shared.rootForPath? ⟨"pages/Index.HTM"⟩).map (·.name) = some "page" := by
    decide +kernel
  have hhas : ∀ p ∈ [(⟨"pages/"⟩ : Path)], Sample.folder.has p = true := by decide +kernel
  have hentry : Sample.folder.entry ⟨"pages/"⟩ = .ok Sample.pages := rfl
  have hwalk : ⟨"pages/Index.HTM"⟩ ∈ Sample.pages.filesFrom Files.skips ⟨"pages/"⟩ := by
    decide +kernel
  obtain ⟨-, hagree, -, hrule⟩ := extensions_agree Sample.shared
  obtain ⟨hchains, hfinds⟩ := hrule _ _ r _ _ hbuild rfl hget hne
  have hlisted := (hagree _ _ hext).1.1 (hchains _ hselects)
  obtain ⟨found, hfound⟩ : ∃ found,
      Sample.folder.lintable Sample.shared.extensions [⟨"pages/"⟩] = .ok found :=
    ⟨_, Files.lintable_of_has hhas⟩
  have hpage := hfinds _ _ _ hfound _ List.mem_cons_self _ hentry _ hwalk [] hselects
  exact ⟨r, hbuild, rfl, hget, hne, hext, hselects, hlisted, hroot, found, hfound, hpage⟩

end Catalog

end Polyglot
