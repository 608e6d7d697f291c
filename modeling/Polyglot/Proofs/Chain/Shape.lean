import Polyglot.Proofs.Chain.Growth

/-!
# The shape of a chain

The root of a chain has no extractor, and every chain nested in it, at any depth, has one.
`validate` accepts exactly the chains of this shape (`validate_eq_ok_iff`), and of another chain it
names what a search with a stack comes across first (`validate_eq_searched`).

The resolver looks for the extractor of each nested chain once more. Behind a successful check it
always finds one: whatever else goes wrong below some nested chain, it is no error of shape
(`not_ofShape_of_resolveNested`).
-/

set_option autoImplicit false

namespace Polyglot

/-- The error is one of the shape of a chain, not of a file. -/
inductive ChainError.OfShape : ChainError → Prop where
  | root (language : Language) : OfShape (.rootExtractor language)
  | missing (language : Language) : OfShape (.missingExtractor language)

namespace ChainSpec

/-! ## What the check accepts -/

mutual

theorem unextracted?_eq_none_iff :
    ∀ s : ChainSpec, unextracted? s = none ↔
      s.extractor.isSome ∧ ∀ t ∈ s.nested, t.extractor.isSome
  | .mk _ _ none _ => by simp [unextracted?, extractor]
  | .mk _ children (some _) _ => by
    simpa [unextracted?, extractor, nested] using unextractedAmong?_eq_none_iff children

theorem unextractedAmong?_eq_none_iff :
    ∀ l : List ChainSpec, unextractedAmong? l = none ↔ ∀ t ∈ nestedAmong l, t.extractor.isSome
  | [] => by simp [unextractedAmong?, nestedAmong]
  | s :: rest => by
    simp only [unextractedAmong?, nestedAmong, Option.or_eq_none_iff, List.mem_cons,
      List.mem_append, or_imp, forall_and, forall_eq, unextractedAmong?_eq_none_iff rest,
      unextracted?_eq_none_iff s]
    exact and_comm.trans and_assoc

end

theorem validate_eq_ok_iff {s : ChainSpec} :
    s.validate = .ok () ↔ s.extractor = none ∧ ∀ t ∈ s.nested, t.extractor.isSome := by
  have hchildren := unextractedAmong?_eq_none_iff s.children
  rw [← nested_eq] at hchildren
  rw [validate]
  cases s.extractor with
  | some x => simp
  | none => cases h : unextractedAmong? s.children <;> simp_all

/-- What the check objects to is the shape. -/
theorem ofShape_of_validate {s : ChainSpec} {e : ChainError} (h : s.validate = .error e) :
    e.OfShape := by
  unfold validate at h
  split at h
  · obtain rfl := Except.error.inj h
    exact .root s.entry
  · split at h
    · obtain rfl := Except.error.inj h
      exact .missing _
    · cases h

/-! ## The search with a stack -/

theorem nestedAmong_append (l l' : List ChainSpec) :
    nestedAmong (l ++ l') = nestedAmong l ++ nestedAmong l' := by
  induction l with
  | nil => rfl
  | cons s l ih => simp [nestedAmong, ih]

theorem length_nestedAmong_reverse (l : List ChainSpec) :
    (nestedAmong l.reverse).length = (nestedAmong l).length := by
  induction l with
  | nil => rfl
  | cons s l ih =>
    rw [List.reverse_cons, nestedAmong_append, List.length_append, ih]
    simp only [nestedAmong, List.append_nil, List.length_cons, List.length_append]
    omega

/-- Goes through the pending chains from the first one on, until one has no extractor. The children
of one that has are put in front of the others, the last of them first. -/
def searched : List ChainSpec → Option Language
  | [] => none
  | s :: pending =>
    if s.extractor.isNone then some s.entry else searched (s.children.reverse ++ pending)
termination_by pending => (nestedAmong pending).length
decreasing_by
  rw [nestedAmong_append, nestedAmong, nested_eq]
  simp only [List.length_append, List.length_cons, length_nestedAmong_reverse]
  omega

theorem unextracted?_eq (s : ChainSpec) :
    unextracted? s =
      if s.extractor.isNone then some s.entry else unextractedAmong? s.children := by
  cases s
  rfl

theorem unextractedAmong?_append (l l' : List ChainSpec) :
    unextractedAmong? (l ++ l') = (unextractedAmong? l').or (unextractedAmong? l) := by
  induction l with
  | nil => simp [unextractedAmong?]
  | cons s l ih => rw [List.cons_append, unextractedAmong?, ih, unextractedAmong?, Option.or_assoc]

theorem searched_eq (pending : List ChainSpec) :
    searched pending = unextractedAmong? pending.reverse := by
  fun_induction searched pending with
  | case1 => rfl
  | case2 s pending hnone =>
    rw [List.reverse_cons, unextractedAmong?_append]
    simp [unextractedAmong?, unextracted?_eq, hnone]
  | case3 s pending hsome ih =>
    rw [ih, List.reverse_append, List.reverse_reverse, unextractedAmong?_append, List.reverse_cons,
      unextractedAmong?_append]
    simp [unextractedAmong?, unextracted?_eq, hsome]

/-- The check is that of the root and then the search, which begins with the last child. -/
theorem validate_eq_searched (s : ChainSpec) :
    s.validate =
      if s.extractor.isSome then .error (.rootExtractor s.entry)
      else match searched s.children.reverse with
        | some l => .error (.missingExtractor l)
        | none => .ok () := by
  rw [searched_eq, List.reverse_reverse]
  rfl

/-- Behind a root without extractor the check names what the search meets. -/
theorem validate_eq_missing_iff {s : ChainSpec} {l : Language} :
    s.validate = .error (.missingExtractor l) ↔
      s.extractor = none ∧ searched s.children.reverse = some l := by
  rw [validate_eq_searched]
  cases s.extractor with
  | some x => simp
  | none => cases searched s.children.reverse <;> simp

/-! ## The errors of a resolution -/

variable {grammar : Grammar} {parent : SyntaxTree} {e : ChainError}

theorem not_ofShape_of_checkRanges {language : Language} {extractor : String}
    {length reached : Nat} {ranges : List Span}
    (h : (checkRanges language extractor length reached ranges).result = .error e) :
    ¬e.OfShape := by
  obtain ⟨range, -, rfl⟩ := result_checkRanges_eq_error_iff.1 h
  exact nofun

theorem error_of_prepare {language : Language} {occurrence : Nat} {editor : Option Editor}
    {slice : Bytes} (h : prepare language occurrence editor slice parent = .error e) :
    ∃ w cause, e = .edit language occurrence w cause := by
  unfold prepare at h
  cases editor with
  | none => cases h
  | some w =>
    obtain ⟨cause, rfl⟩ := exists_of_mapError_error h
    exact ⟨w.name, cause, rfl⟩

theorem error_of_parseRegion {language : Language} {occurrence : Nat} {bytes : Bytes}
    {map : OffsetMap} {source : Source}
    (h : parseRegion grammar language occurrence bytes map source = .error e) :
    ∃ cause, e = .parse language occurrence cause := by
  unfold parseRegion at h
  split at h
  · next cause _ => exact ⟨cause, (Except.error.inj h).symm⟩
  · cases h

/-- What goes wrong with a range is the edit or the parse of its bytes. -/
theorem error_of_resolveRange {language : Language} {editor : Option Editor}
    {occurrence : Nat} {range : Span}
    (h : (resolveRange grammar parent language editor occurrence range).result = .error e) :
    (∃ w cause, e = .edit language occurrence w cause) ∨
      ∃ cause, e = .parse language occurrence cause := by
  rw [resolveRange_eq] at h
  rcases Logged.bind_error h with h | ⟨edit, -, h⟩
  · exact .inl (error_of_prepare h)
  · rcases Logged.bind_error h with h | ⟨tree, -, h⟩
    · exact .inr (error_of_parseRegion h)
    · cases h

theorem not_ofShape_of_resolveRange {language : Language} {editor : Option Editor}
    {occurrence : Nat} {range : Span}
    (h : (resolveRange grammar parent language editor occurrence range).result = .error e) :
    ¬e.OfShape := by
  rcases error_of_resolveRange h with ⟨w, cause, rfl⟩ | ⟨cause, rfl⟩
  · exact nofun
  · exact nofun

mutual

/-- Where every chain has an extractor, what goes wrong in resolving them is not their shape. -/
theorem not_ofShape_of_resolveNested :
    ∀ (children : List ChainSpec), (∀ t ∈ nestedAmong children, t.extractor.isSome) →
      ∀ (parent : SyntaxTree) (forest : Forest) (e : ChainError),
        (resolveNested grammar parent children forest).result = .error e → ¬e.OfShape
  | [], _, _, _, _, h => by cases h
  | s :: rest, hsome, parent, forest, e, h => by
    rw [nestedAmong, List.forall_mem_cons, List.forall_mem_append] at hsome
    obtain ⟨hs, hbelow, hbehind⟩ := hsome
    rw [resolveNested_cons] at h
    rcases Logged.bind_error h with h | ⟨grown, -, h⟩
    · exact not_ofShape_of_resolveChild s hs hbelow parent forest e h
    · exact not_ofShape_of_resolveNested rest hbehind parent grown e h

theorem not_ofShape_of_resolveChild :
    ∀ (s : ChainSpec), s.extractor.isSome → (∀ t ∈ s.nested, t.extractor.isSome) →
      ∀ (parent : SyntaxTree) (forest : Forest) (e : ChainError),
        (resolveChild grammar parent s forest).result = .error e → ¬e.OfShape
  | .mk _ _ none _, hs, _, _, _, _, _ => by cases hs
  | .mk entry children (some x) editor, _, hbelow, parent, forest, e, h => by
    rw [resolveChild_some] at h
    rcases Logged.bind_error h with h | ⟨_, -, h⟩
    · exact not_ofShape_of_checkRanges h
    · refine Logged.foldlM_error (P := fun e => ¬e.OfShape) (fun range _ forest e h => ?_) h
      rcases Logged.bind_error h with h | ⟨tree, -, h⟩
      · exact not_ofShape_of_resolveRange h
      · exact not_ofShape_of_resolveNested children hbelow tree (forest.insert tree) e h

end

end ChainSpec

end Polyglot
