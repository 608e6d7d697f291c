import Mathlib.Data.List.Chain
import Mathlib.Data.List.Nodup
import Polyglot.Config.Catalog

/-!
# References among definitions

Chain definitions are a graph: a name refers to the names that its definition lists as children.
`Legal` says what has to hold of the graph before a chain can be unfolded from its name, and
`ClosedPath` what a cycle looks like when it is shown. Where names are distinct, the references of
a name are the children of the one definition that is found for it (`Legal`'s first part is what
makes the graph a function of names).
-/

set_option autoImplicit false

namespace Polyglot

/-- A definition of the first name lists the second as a child. -/
def Refers (definitions : List ChainDefinition) (name child : String) : Prop :=
  ∃ d ∈ definitions, d.name = name ∧ child ∈ d.children

/-- Every child that is listed is defined. -/
def ChildrenDefined (definitions : List ChainDefinition) : Prop :=
  ∀ d ∈ definitions, ∀ child ∈ d.children, ∃ e ∈ definitions, e.name = child

/-- Definitions whose references are in order: every name is defined once, every child is
defined, and no chain contains itself. -/
structure Legal (definitions : List ChainDefinition) : Prop where
  distinct : (definitions.map (·.name)).Nodup
  defined : ChildrenDefined definitions
  acyclic : ∀ name, ¬ Relation.TransGen (Refers definitions) name name

/-- A path along references that comes back to where it starts, and passes nothing else twice. -/
structure ClosedPath (definitions : List ChainDefinition) (path : List String) : Prop where
  two : 2 ≤ path.length
  closed : path.head? = path.getLast?
  distinct : path.dropLast.Nodup
  refers : path.IsChain (Refers definitions)

section Names

variable {definitions : List ChainDefinition} {d : ChainDefinition} {name child : String}

theorem mem_of_find? (h : ChainDefinition.find? definitions name = some d) :
    d ∈ definitions ∧ d.name = name := by
  refine ⟨List.mem_of_find?_eq_some h, ?_⟩
  simpa using List.find?_some h

theorem find?_isSome_iff :
    (ChainDefinition.find? definitions name).isSome = true ↔ ∃ e ∈ definitions, e.name = name := by
  simp [ChainDefinition.find?, List.find?_isSome]

/-- Definitions of distinct names are found by their names. -/
theorem find?_of_mem (hdistinct : (definitions.map (·.name)).Nodup) (hd : d ∈ definitions) :
    ChainDefinition.find? definitions d.name = some d := by
  obtain ⟨e, he⟩ := Option.isSome_iff_exists.1 (find?_isSome_iff.2 ⟨d, hd, rfl⟩)
  obtain ⟨hmem, hname⟩ := mem_of_find? he
  rw [he, List.inj_on_of_nodup_map hdistinct hmem hd hname]

/-- The references of a name are the children of its definition. -/
theorem refers_iff (hdistinct : (definitions.map (·.name)).Nodup)
    (h : ChainDefinition.find? definitions name = some d) :
    Refers definitions name child ↔ child ∈ d.children := by
  obtain ⟨hd, hname⟩ := mem_of_find? h
  constructor
  · rintro ⟨e, he, hename, hchild⟩
    rwa [← List.inj_on_of_nodup_map hdistinct he hd (hename.trans hname.symm)]
  · intro hchild
    exact ⟨d, hd, hname, hchild⟩

/-- A child is defined where every child is. -/
theorem Refers.find? (h : Refers definitions name child) (hdefined : ChildrenDefined definitions) :
    ∃ e, ChainDefinition.find? definitions child = some e := by
  obtain ⟨d, hd, -, hchild⟩ := h
  exact Option.isSome_iff_exists.1 (find?_isSome_iff.2 (hdefined d hd child hchild))

end Names

/-- A closed path leads from its first name back to it. -/
theorem ClosedPath.transGen {definitions : List ChainDefinition} {path : List String}
    (h : ClosedPath definitions path) :
    ∃ name, Relation.TransGen (Refers definitions) name name := by
  obtain ⟨htwo, hclosed, -, hrefers⟩ := h
  cases path with
  | nil => simp at htwo
  | cons name rest =>
    have hne : rest ≠ [] := by
      rintro rfl
      simp at htwo
    have hall : (name :: rest).Pairwise (Relation.TransGen (Refers definitions)) :=
      List.isChain_iff_pairwise.1 (hrefers.imp fun _ _ => .single)
    have hlast : name ∈ rest := by
      rw [List.head?_cons, List.getLast?_cons_of_ne_nil hne] at hclosed
      exact List.mem_of_getLast? hclosed.symm
    exact ⟨name, (List.pairwise_cons.1 hall).1 name hlast⟩

end Polyglot
