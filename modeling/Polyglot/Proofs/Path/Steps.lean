import Mathlib.Data.List.Basic
import Polyglot.Path

/-!
# The steps of a path

A text that can name an entry (`IsName`) adds one step to a path, whether the path ends with a slash
or not (`components_foldl_join`). The names among the steps of a path are such texts
(`isName_of_mem`), and the root is a step only of paths that start at the root.
-/

set_option autoImplicit false

namespace Polyglot

namespace Path

/-! ## Pieces -/

section Pieces

variable {sep : Char} {l : List Char}

theorem pieces_ne_nil (sep : Char) (l : List Char) : pieces sep l ≠ [] := by
  fun_cases pieces sep l <;> exact nofun

theorem pieces_append_sep (a b : List Char) :
    pieces sep (a ++ sep :: b) = pieces sep a ++ pieces sep b := by
  induction a with
  | nil => simp [pieces]
  | cons c a ih =>
    rw [List.cons_append, pieces, pieces, ih]
    by_cases hc : c == sep
    · simp [hc]
    · cases ha : pieces sep a with
      | nil => exact absurd ha (pieces_ne_nil sep a)
      | cons piece more => simp [hc]

theorem pieces_of_not_mem (h : sep ∉ l) : pieces sep l = [l] := by
  induction l with
  | nil => rfl
  | cons c l ih =>
    rw [List.mem_cons, not_or] at h
    obtain ⟨hc, hl⟩ := h
    have hne : (c == sep) = false := beq_false_of_ne (Ne.symm hc)
    simp [pieces, ih hl, hne]

theorem not_mem_of_mem_pieces : ∀ piece ∈ pieces sep l, sep ∉ piece := by
  induction l with
  | nil => simp [pieces]
  | cons c l ih =>
    unfold pieces
    split
    · exact List.forall_mem_cons.2 ⟨List.not_mem_nil, ih⟩
    · next hc =>
      have hne : sep ≠ c := fun heq => hc (by simp [heq])
      split
      · exact List.forall_mem_singleton.2 (by simpa using hne)
      · next piece more hpieces =>
        rw [hpieces] at ih
        obtain ⟨hpiece, hmore⟩ := List.forall_mem_cons.1 ih
        refine List.forall_mem_cons.2 ⟨?_, hmore⟩
        rw [List.mem_cons, not_or]
        exact ⟨hne, hpiece⟩

end Pieces

theorem segments_ne_nil (p : Path) : p.segments ≠ [] := by
  simp [segments, pieces_ne_nil]

/-! ## Names -/

/-- The text can name an entry of a folder. -/
structure IsName (text : String) : Prop where
  nonempty : text ≠ ""
  here : text ≠ "."
  up : text ≠ ".."
  plain : '/' ∉ text.toList

theorem isName_iff {text : String} :
    IsName text ↔ text ≠ "" ∧ text ≠ "." ∧ text ≠ ".." ∧ '/' ∉ text.toList :=
  ⟨fun h => ⟨h.nonempty, h.here, h.up, h.plain⟩, fun ⟨hne, hhere, hup, hplain⟩ =>
    ⟨hne, hhere, hup, hplain⟩⟩

instance (text : String) : Decidable (IsName text) :=
  decidable_of_iff' _ isName_iff

theorem later?_of_isName {name : String} (h : IsName name) :
    later? name = some (.name name) := by
  simp [later?, h.nonempty, h.here, h.up]

/-- The step that a path begins with before its pieces are read. -/
def front (absolute : Bool) (pieces : List String) : List Component :=
  if absolute then [.root] else if pieces.head? = some "." then [.here] else []

theorem components_eq (p : Path) :
    p.components = front p.isAbsolute p.segments ++ p.segments.filterMap later? := by
  unfold components front
  split
  · rfl
  · split
    · next rest hsegments => simp [hsegments, later?]
    · next hsegments =>
      have hhead : p.segments.head? ≠ some "." := by
        intro h
        obtain ⟨rest, hrest⟩ := List.head?_eq_some_iff.1 h
        exact hsegments rest hrest
      simp [hhead]

/-! ## A name below a path -/

variable {p : Path} {name : String}

/-- The text of the path, without a slash at its end. -/
def bare (p : Path) : List Char :=
  if p.text.toList.getLast? = some '/' then p.text.toList.dropLast else p.text.toList

/-- The pieces of the path, without what is behind a slash at its end. -/
def stem (p : Path) : List String :=
  (pieces '/' p.bare).map String.ofList

theorem text_eq_bare (p : Path) : p.text.toList = p.bare ∨ p.text.toList = p.bare ++ ['/'] := by
  unfold bare
  split
  · next hlast =>
    obtain ⟨a, ha⟩ := List.getLast?_eq_some_iff.1 hlast
    rw [ha, List.dropLast_concat]
    exact .inr rfl
  · exact .inl rfl

theorem stem_ne_nil (p : Path) : p.stem ≠ [] := by
  simp [stem, pieces_ne_nil]

theorem segments_eq_stem (p : Path) : p.segments = p.stem ∨ p.segments = p.stem ++ [""] := by
  unfold segments stem
  rcases text_eq_bare p with h | h
  · exact .inl (by rw [h])
  · right
    rw [h, pieces_append_sep]
    simp [pieces]

theorem components_eq_stem (p : Path) :
    p.components = front p.isAbsolute p.stem ++ p.stem.filterMap later? := by
  rw [components_eq]
  rcases segments_eq_stem p with h | h
  · rw [h]
  · have hhead : (p.stem ++ [""]).head? = p.stem.head? :=
      List.head?_append_of_ne_nil _ p.stem_ne_nil
    simp [h, front, hhead, later?]

/-- A name is put behind one slash. -/
theorem toList_join (hp : p.text ≠ "") (hname : IsName name) :
    (p.join name).text.toList = p.bare ++ '/' :: name.toList := by
  have hhead : name.toList.head? ≠ some '/' := by
    intro h
    exact hname.plain (List.mem_of_head? h)
  unfold join bare
  by_cases hlast : p.text.toList.getLast? = some '/'
  · obtain ⟨a, ha⟩ := List.getLast?_eq_some_iff.1 hlast
    simp [hhead, ha]
  · simp [hhead, hlast, hp]

theorem segments_join (hp : p.text ≠ "") (hname : IsName name) :
    (p.join name).segments = p.stem ++ [name] := by
  rw [segments, toList_join hp hname, pieces_append_sep, pieces_of_not_mem hname.plain]
  simp [stem]

theorem join_ne (hp : p.text ≠ "") (hname : IsName name) : (p.join name).text ≠ "" := by
  intro h
  have hlist := toList_join hp hname
  rw [h] at hlist
  simp at hlist

theorem isAbsolute_join (hp : p.text ≠ "") (hname : IsName name) :
    (p.join name).isAbsolute = p.isAbsolute := by
  unfold isAbsolute
  rw [toList_join hp hname]
  rcases text_eq_bare p with h | h
  · cases hbare : p.bare with
    | nil =>
      rw [hbare] at h
      exact absurd (String.toList_eq_nil_iff.1 h) hp
    | cons c rest => simp [h, hbare]
  · cases hbare : p.bare <;> simp [h, hbare]

theorem stem_join (hp : p.text ≠ "") (hname : IsName name) :
    (p.join name).stem = p.stem ++ [name] := by
  have hlast : (p.join name).text.toList.getLast? ≠ some '/' := by
    have hne : name.toList ≠ [] := fun h => hname.nonempty (String.toList_eq_nil_iff.1 h)
    have htext : (p.join name).text.toList.getLast? = name.toList.getLast? := by
      rw [toList_join hp hname, List.append_cons, List.getLast?_append_of_ne_nil _ hne]
    rw [htext]
    exact fun h => hname.plain (List.mem_of_getLast? h)
  rw [← segments_join hp hname, stem, bare, if_neg hlast, segments]

theorem components_join (hp : p.text ≠ "") (hname : IsName name) :
    (p.join name).components = p.components ++ [.name name] := by
  have hhead : (p.stem ++ [name]).head? = p.stem.head? :=
    List.head?_append_of_ne_nil _ p.stem_ne_nil
  rw [components_eq, components_eq_stem, segments_join hp hname, isAbsolute_join hp hname, front,
    front, hhead]
  simp [later?_of_isName hname]

/-! ## Names below a path -/

variable {names : List String}

/-- The path of names below a path. -/
theorem segments_foldl_join (hp : p.text ≠ "") (hnames : ∀ name ∈ names, IsName name)
    (hne : names ≠ []) :
    (names.foldl join p).segments = p.stem ++ names := by
  induction names generalizing p with
  | nil => exact absurd rfl hne
  | cons name rest ih =>
    obtain ⟨hname, hrest⟩ := List.forall_mem_cons.1 hnames
    rw [List.foldl_cons]
    cases rest with
    | nil => exact segments_join hp hname
    | cons next rest =>
      rw [ih (join_ne hp hname) hrest (List.cons_ne_nil _ _), stem_join hp hname,
        List.append_assoc, List.singleton_append]

theorem isAbsolute_foldl_join (hp : p.text ≠ "") (hnames : ∀ name ∈ names, IsName name) :
    (names.foldl join p).isAbsolute = p.isAbsolute := by
  induction names generalizing p with
  | nil => rfl
  | cons name rest ih =>
    obtain ⟨hname, hrest⟩ := List.forall_mem_cons.1 hnames
    rw [List.foldl_cons, ih (join_ne hp hname) hrest, isAbsolute_join hp hname]

theorem foldl_join_ne (hp : p.text ≠ "") (hnames : ∀ name ∈ names, IsName name) :
    (names.foldl join p).text ≠ "" := by
  induction names generalizing p with
  | nil => exact hp
  | cons name rest ih =>
    obtain ⟨hname, hrest⟩ := List.forall_mem_cons.1 hnames
    exact ih (join_ne hp hname) hrest

/-- Each name adds one step. -/
theorem components_foldl_join (hp : p.text ≠ "") (hnames : ∀ name ∈ names, IsName name) :
    (names.foldl join p).components = p.components ++ names.map .name := by
  induction names generalizing p with
  | nil => simp
  | cons name rest ih =>
    obtain ⟨hname, hrest⟩ := List.forall_mem_cons.1 hnames
    rw [List.foldl_cons, ih (join_ne hp hname) hrest, components_join hp hname]
    simp

/-! ## The steps of any path -/

theorem root_not_mem_filterMap (pieces : List String) : .root ∉ pieces.filterMap later? := by
  intro h
  obtain ⟨piece, -, hpiece⟩ := List.mem_filterMap.1 h
  unfold later? at hpiece
  split at hpiece
  · cases hpiece
  · split at hpiece <;> cases hpiece

/-- The root is a step of the paths that start there. -/
theorem root_mem_iff : .root ∈ p.components ↔ p.isAbsolute = true := by
  rw [components_eq, List.mem_append]
  simp only [root_not_mem_filterMap, or_false]
  unfold front
  split
  · simp_all
  · split <;> simp_all

/-- A name among the steps can name an entry. -/
theorem isName_of_mem (h : .name name ∈ p.components) : IsName name := by
  have hpiece : ∃ piece ∈ p.segments, later? piece = some (.name name) := by
    rw [components_eq, List.mem_append] at h
    rcases h with h | h
    · unfold front at h
      split at h
      · simp at h
      · split at h <;> simp at h
    · exact List.mem_filterMap.1 h
  obtain ⟨piece, hmem, hlater⟩ := hpiece
  unfold later? at hlater
  split at hlater
  · cases hlater
  · next hnothing =>
    split at hlater
    · cases hlater
    · next hup =>
      obtain rfl := Component.name.inj (Option.some.inj hlater)
      simp only [Bool.or_eq_true, beq_iff_eq, not_or] at hnothing hup
      obtain ⟨letters, hletters, rfl⟩ := List.mem_map.1 hmem
      have hplain := not_mem_of_mem_pieces letters hletters
      exact ⟨hnothing.1, hnothing.2, hup, by simpa using hplain⟩

end Path

end Polyglot
