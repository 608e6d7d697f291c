import Polyglot.Chain.Editors
import Polyglot.Chain.Extractors
import Polyglot.Proofs.Chain.Growth

/-!
# Occurrence numbers that nobody reads

A tree carries the number of trees of its language that were registered before it, which depends on
everything that was resolved before. Nothing is made of that number: `SyntaxTree.unnumbered` sets it
to zero, and moving about in the tree, the extractors at hand (`Extractor.Blind`) and the editors
at hand (`Editor.Blind`) give the same as before. So a range of an unnumbered parent gives the tree
of the range, unnumbered (`resolveRange_unnumbered`).
-/

set_option autoImplicit false

namespace Polyglot

/-- The tree as the first one of its language. -/
def SyntaxTree.unnumbered (t : SyntaxTree) : SyntaxTree :=
  { t with occurrence := 0 }

/-- The node of the unnumbered tree. -/
def SyntaxNode.unnumbered (n : SyntaxNode) : SyntaxNode :=
  ⟨n.tree.unnumbered, n.id⟩

/-! ## Moving about -/

namespace SyntaxTree

variable (t : SyntaxTree)

@[simp] theorem parsed_unnumbered : t.unnumbered.parsed = t.parsed := rfl

@[simp] theorem root_unnumbered : t.unnumbered.root = t.root.unnumbered := rfl

theorem walkFrom_unnumbered (fuel : Nat) (pending : List Nat) :
    t.unnumbered.walkFrom fuel pending = t.walkFrom fuel pending := by
  induction fuel generalizing pending with
  | zero => rfl
  | succ fuel ih =>
    cases pending with
    | nil => rfl
    | cons id pending => exact congrArg (id :: ·) (ih _)

theorem collectFrom_unnumbered (reaches wanted : Node → Bool) (fuel : Nat) (pending : List Nat) :
    t.unnumbered.collectFrom reaches wanted fuel pending =
      t.collectFrom reaches wanted fuel pending := by
  induction fuel generalizing pending with
  | zero => rfl
  | succ fuel ih =>
    cases pending with
    | nil => rfl
    | cons id pending =>
      simp only [collectFrom, ih]
      rfl

theorem ancestorsFrom_unnumbered (fuel id : Nat) :
    t.unnumbered.ancestorsFrom fuel id = t.ancestorsFrom fuel id := by
  induction fuel generalizing id with
  | zero => rfl
  | succ fuel ih =>
    simp only [ancestorsFrom, ih]
    rfl

end SyntaxTree

namespace SyntaxNode

variable (n : SyntaxNode)

@[simp] theorem data_unnumbered : n.unnumbered.data = n.data := rfl

@[simp] theorem kind_unnumbered : n.unnumbered.kind = n.kind := rfl

@[simp] theorem children_unnumbered : n.unnumbered.children = n.children.map unnumbered := by
  simp only [children, List.map_map]
  rfl

@[simp] theorem descendantsOfType_unnumbered (kinds : List String) :
    n.unnumbered.descendantsOfType kinds = (n.descendantsOfType kinds).map unnumbered := by
  simp only [descendantsOfType, collect, List.map_map]
  exact congrArg _ (n.tree.collectFrom_unnumbered _ _ _ _)

@[simp] theorem walk_unnumbered : n.unnumbered.walk = n.walk.map unnumbered := by
  simp only [walk, List.map_map]
  exact congrArg _ (n.tree.walkFrom_unnumbered _ _)

@[simp] theorem ancestors_unnumbered : n.unnumbered.ancestors = n.ancestors.map unnumbered := by
  simp only [ancestors, List.map_map]
  exact congrArg _ (n.tree.ancestorsFrom_unnumbered _ _)

@[simp] theorem closest?_unnumbered (kinds : List String) :
    n.unnumbered.closest? kinds = (n.closest? kinds).map unnumbered := by
  simp only [closest?, ancestors_unnumbered, List.find?_map]
  rfl

end SyntaxNode

/-! ## Extractors -/

namespace Extractor

/-- The extractor picks the same out of a tree, however the tree is numbered. -/
def Blind (x : Extractor) : Prop :=
  ∀ (t : SyntaxTree) (bytes : Bytes), x.ranges t.unnumbered bytes = x.ranges t bytes

variable (n : SyntaxNode) (bytes : Bytes)

@[simp] theorem childOfKind?_unnumbered (kind : String) :
    childOfKind? n.unnumbered kind = (childOfKind? n kind).map SyntaxNode.unnumbered := by
  simp only [childOfKind?, SyntaxNode.children_unnumbered, List.find?_map]
  rfl

@[simp] theorem rawText?_unnumbered : rawText? n.unnumbered = rawText? n := by
  simp only [rawText?, childOfKind?_unnumbered, Option.map_map]
  rfl

@[simp] theorem attributeName?_unnumbered :
    attributeName? n.unnumbered bytes = attributeName? n bytes := by
  simp only [attributeName?, childOfKind?_unnumbered]
  cases childOfKind? n "attribute_name" <;> rfl

@[simp] theorem isNamed_unnumbered (name : String) :
    isNamed n.unnumbered bytes name = isNamed n bytes name := by
  simp only [isNamed, attributeName?_unnumbered]

@[simp] theorem attributeValue?_unnumbered : attributeValue? n.unnumbered = attributeValue? n := by
  simp only [attributeValue?, SyntaxNode.children_unnumbered, List.findSome?_map]
  congr 1
  funext c
  simp only [Function.comp_apply, SyntaxNode.kind_unnumbered, SyntaxNode.data_unnumbered,
    childOfKind?_unnumbered, Option.map_map]
  rfl

@[simp] theorem isJavaScript_unnumbered :
    isJavaScript n.unnumbered bytes = isJavaScript n bytes := by
  simp only [isJavaScript, childOfKind?_unnumbered]
  cases childOfKind? n "start_tag" with
  | none => rfl
  | some tag =>
    simp only [Option.map_some, SyntaxNode.children_unnumbered, List.find?_map]
    have hdeclared : (fun c : SyntaxNode => c.kind == "attribute" && isNamed c bytes "type") ∘
        SyntaxNode.unnumbered =
          fun c => c.kind == "attribute" && isNamed c bytes "type" := by
      funext c
      simp
    rw [hdeclared]
    cases tag.children.find? fun c => c.kind == "attribute" && isNamed c bytes "type" with
    | none => rfl
    | some c => simp only [Option.map_some, Option.bind_some, attributeValue?_unnumbered]

@[simp] theorem qualifies_unnumbered (kinds within : List String) :
    qualifies kinds within n.unnumbered = qualifies kinds within n := by
  simp [qualifies]

theorem blind_htmlScript : htmlScript.Blind := by
  intro t bytes
  simp only [htmlScript, SyntaxTree.root_unnumbered, SyntaxNode.descendantsOfType_unnumbered,
    List.filter_map, List.filterMap_map, Function.comp_def, isJavaScript_unnumbered,
    rawText?_unnumbered]

theorem blind_htmlStyle : htmlStyle.Blind := by
  intro t bytes
  simp only [htmlStyle, SyntaxTree.root_unnumbered, SyntaxNode.descendantsOfType_unnumbered,
    List.filterMap_map, Function.comp_def, rawText?_unnumbered]

theorem blind_htmlAttribute (name : String) : (htmlAttribute name).Blind := by
  intro t bytes
  show (List.filter _ _).filterMap attributeValue? = (List.filter _ _).filterMap attributeValue?
  rw [SyntaxTree.root_unnumbered, SyntaxNode.descendantsOfType_unnumbered, List.filter_map,
    List.filterMap_map]
  congr 1
  · funext n
    exact attributeValue?_unnumbered n
  · congr 1
    funext n
    exact isNamed_unnumbered n bytes name

theorem blind_ofKinds (kinds within : List String) : (ofKinds kinds within).Blind := by
  intro t bytes
  simp [ofKinds, List.filter_map, Function.comp_def]

end Extractor

/-! ## Editors -/

namespace Editor

/-- The editor gives the same for a slice, however the parent is numbered. -/
def Blind (w : Editor) : Prop :=
  ∀ (slice : Bytes) (parent : SyntaxTree), w.edit slice parent.unnumbered = w.edit slice parent

theorem blind_stripCommentWrapper : stripCommentWrapper.Blind :=
  fun _ _ => rfl

theorem blind_wrap (before behind : Bytes) : (wrap before behind).Blind :=
  fun _ _ => rfl

theorem blind_blankDelimited (opening closing : Bytes) : (blankDelimited opening closing).Blind :=
  fun _ _ => rfl

end Editor

/-! ## Chains -/

namespace ChainSpec

/-- Extractor and editor do not look at the numbers of occurrence. -/
structure Blind (s : ChainSpec) : Prop where
  picks : ∀ x, s.extractor = some x → x.Blind
  edits : ∀ w, s.editor = some w → w.Blind

variable {grammar : Grammar} {parent tree : SyntaxTree} {language : Language}
  {editor : Option Editor} {occurrence : Nat} {range : Span}

/-- What comes of a range of a parent comes of the range of the unnumbered parent, unnumbered. -/
theorem resolveRange_unnumbered (hblind : ∀ w, editor = some w → w.Blind)
    (h : (resolveRange grammar parent language editor occurrence range).result = .ok tree) :
    (resolveRange grammar parent.unnumbered language editor 0 range).result =
      .ok tree.unnumbered := by
  obtain ⟨edit, hedit, htree⟩ := resolveRange_ok h
  have hedit' : prepare language 0 editor
      (parent.unnumbered.parsed.slice range.start range.stop) parent.unnumbered = .ok edit := by
    cases editor with
    | none => exact hedit
    | some w =>
      show (w.edit (parent.parsed.slice range.start range.stop) parent.unnumbered).mapError _ = _
      rw [hblind w rfl, ok_of_mapError_ok hedit]
      rfl
  have htree' : parseRegion grammar language 0 edit.bytes
      ((edit.map.shiftTargets range.start).andThen parent.unnumbered.map)
      parent.unnumbered.source = .ok tree.unnumbered := by
    obtain ⟨parse, hparse, rfl⟩ := parseRegion_ok htree
    unfold parseRegion
    rw [hparse]
    rfl
  exact resolveRange_of_ok hedit' htree'

end ChainSpec

end Polyglot
