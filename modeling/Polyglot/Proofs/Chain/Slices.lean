import Polyglot.Proofs.Chain.Events
import Polyglot.Proofs.Chain.Maps

/-!
# Slices of a parent

An extractor may return anything. The resolver slices the parent by it all the same, and relies on
the check that stands before. `ChainSpec.Checked.resolve` is the resolution seen by an observer who
objects to a slice that is out of bounds, which is a fault of its own; no resolution, whether it ends
well or not, comes across this fault (`Checked.resolve_eq`).

Where the check objects, nothing is done for any of the ranges (`Traced.resolveChild_of_error`). As a
failure ends a resolution, one that fails for a range has nothing behind the call of the extractor
that returned it (`blames_resolve`).
-/

set_option autoImplicit false

namespace Polyglot

/-! ## The resolver with checked slices -/

/-- What can go wrong where slices are checked: a slice is out of bounds, or it is something else. -/
inductive Fault where
  | slice (cause : OutOfBounds)
  | chain (cause : ChainError)

namespace ChainSpec.Checked

/-- Objects to a slice that is out of bounds, and to nothing else. -/
def observer : Observer (Logged Fault) where
  see
    | .sliced range length => (Logged.of (Bounds.strict length range)).mapError .slice
    | _ => pure ()
  take x := x.mapError .chain

/-- Adds the trees that one nested chain finds in a parent. -/
def resolveChild (grammar : Grammar) (parent : SyntaxTree) (s : ChainSpec) (forest : Forest) :
    Logged Fault Forest :=
  resolveChildBy observer grammar parent s forest

/-- The forest of a buffer. -/
def resolve (grammar : Grammar) (buffer : Bytes) (spec : ChainSpec) : Logged Fault Forest :=
  resolveBy observer grammar buffer spec

/-! ## No slice is out of bounds -/

theorem agree_absent : observer.Agree .absent fun x y => x = y.mapError .chain where
  pure _ := rfl
  bind hx hf := by
    rw [hx]
    exact Logged.mapError_bind fun a _ => hf a
  see e he := by
    cases e with
    | sliced range length => simp only [observer, Bounds.admits_strict length range he]; rfl
    | parsed | picked | edited | registered => rfl
  take _ := rfl
  behind hf := Logged.mapError_bind hf

/-- Whatever an extractor returns, no slice that is taken for it is out of bounds. -/
theorem resolveChild_eq (grammar : Grammar) (s : ChainSpec) (parent : SyntaxTree)
    (forest : Forest) :
    resolveChild grammar parent s forest =
      (ChainSpec.resolveChild grammar parent s forest).mapError .chain :=
  agree_absent.resolveChildBy s parent forest

/-- A resolution takes no slice that is out of bounds. -/
theorem resolve_eq (grammar : Grammar) (buffer : Bytes) (spec : ChainSpec) :
    resolve grammar buffer spec = (ChainSpec.resolve grammar buffer spec).mapError .chain :=
  agree_absent.resolveBy grammar buffer spec

end ChainSpec.Checked

/-! ## Nothing behind an objection -/

/-- The error is about what an extractor returned. -/
inductive ChainError.OfRange : ChainError → Prop where
  | invalid (language : Language) (extractor : String) (range : Span) (length : Nat) :
    OfRange (.invalidRange language extractor range length)

theorem ChainError.OfShape.not_ofRange {e : ChainError} (h : e.OfShape) : ¬e.OfRange := by
  intro hrange
  cases hrange
  cases h

namespace ChainSpec

variable {grammar : Grammar} {parent : SyntaxTree} {chains : List ChainSpec}

namespace Traced

variable {s : ChainSpec} {x : Extractor}

/-- What is done for one range that an extractor returned. -/
def resolveFound (grammar : Grammar) (parent : SyntaxTree) (entry : Language)
    (children : List ChainSpec) (editor : Option Editor) (forest : Forest) (range : Span) :
    Traced Forest := do
  let tree ← resolveRange grammar parent entry editor (forest.occurrences entry) range
  Traced.observer.see (.registered tree.language tree.occurrence)
  resolveNested grammar tree children (forest.insert tree)

/-- If the check objects, nothing is done for any range. -/
theorem resolveChild_of_error (hx : s.extractor = some x) {e : ChainError}
    (h : (checkRanges s.entry x.name parent.parsed.length 0
      (x.ranges parent parent.parsed)).result = .error e) (forest : Forest) :
    resolveChild grammar parent s forest =
      ⟨[.picked x.name parent.parsed],
        ⟨(checkRanges s.entry x.name parent.parsed.length 0
          (x.ranges parent parent.parsed)).records, .error e⟩⟩ := by
  obtain ⟨entry, children, _, editor⟩ := s
  obtain rfl := hx
  rw [resolveChild, resolveChildBy, Traced.bind_of_ok rfl, Traced.bind_of_error h]
  rfl

/-- If the check does not object, what it logged stands before all that is done for the ranges. -/
theorem resolveChild_of_ok (hx : s.extractor = some x)
    (h : (checkRanges s.entry x.name parent.parsed.length 0
      (x.ranges parent parent.parsed)).result = .ok ()) (forest : Forest) :
    resolveChild grammar parent s forest =
      let found := (x.ranges parent parent.parsed).foldlM
        (resolveFound grammar parent s.entry s.children s.editor) forest
      ⟨.picked x.name parent.parsed :: found.events,
        ⟨(checkRanges s.entry x.name parent.parsed.length 0
          (x.ranges parent parent.parsed)).records ++ found.outcome.records,
          found.outcome.result⟩⟩ := by
  obtain ⟨entry, children, _, editor⟩ := s
  obtain rfl := hx
  rw [resolveChild, resolveChildBy, Traced.bind_of_ok rfl, Traced.bind_of_ok h]
  rfl

end Traced

/-- A run that fails for a range ends with the call of the extractor, of one of some chains, that
returned the range, and this is the first one that does not fit. -/
def Blames (chains : List ChainSpec) {α : Type} (t : Traced α) : Prop :=
  ∀ e, t.outcome.result = .error e → e.OfRange →
    ∃ s ∈ chains, ∃ x parent range, s.extractor = some x ∧
      FirstMisfit parent.parsed.length (x.ranges parent parent.parsed) range ∧
      e = .invalidRange s.entry x.name range parent.parsed.length ∧
      t.events.getLast? = some (.picked x.name parent.parsed)

namespace Blames

variable {α β : Type} {t : Traced α}

theorem of_not (h : ∀ e, t.outcome.result = .error e → ¬e.OfRange) : Blames chains t :=
  fun e he hrange => absurd hrange (h e he)

theorem of_ok {a : α} (h : t.outcome.result = .ok a) : Blames chains t := by
  intro e he _
  rw [h] at he
  cases he

/-- What happened before does not matter. -/
theorem of_behind (ht : Blames chains t) {t' : Traced α}
    (hresult : t'.outcome.result = t.outcome.result) (before : List Event)
    (hevents : t'.events = before ++ t.events) : Blames chains t' := by
  intro e he hrange
  rw [hresult] at he
  obtain ⟨s, hs, x, parent, range, hx, hmisfit, heq, hlast⟩ := ht e he hrange
  refine ⟨s, hs, x, parent, range, hx, hmisfit, heq, ?_⟩
  rw [hevents, List.getLast?_append, hlast]
  rfl

theorem bind {f : α → Traced β} (ht : Blames chains t) (hf : ∀ a, Blames chains (f a)) :
    Blames chains (t >>= f) := by
  cases h : t.outcome.result with
  | error e =>
    rw [Traced.bind_of_error h]
    intro e' he' hrange
    obtain rfl := Except.error.inj he'
    exact ht e h hrange
  | ok a =>
    rw [Traced.bind_of_ok h]
    exact (hf a).of_behind rfl t.events rfl

theorem foldlM {f : β → α → Traced β} (step : ∀ b a, Blames chains (f b a)) (l : List α) (b : β) :
    Blames chains (l.foldlM f b) := by
  induction l generalizing b with
  | nil => exact of_ok rfl
  | cons a l ih =>
    rw [List.foldlM_cons]
    exact (step b a).bind ih

end Blames

theorem blames_resolveRange (grammar : Grammar) (parent : SyntaxTree) (language : Language)
    (editor : Option Editor) (occurrence : Nat) (range : Span) :
    Blames chains (Traced.resolveRange grammar parent language editor occurrence range) := by
  refine .of_not fun e he => ?_
  rw [Traced.outcome_resolveRange] at he
  rcases error_of_resolveRange he with ⟨w, cause, rfl⟩ | ⟨cause, rfl⟩
  · rintro ⟨⟩
  · rintro ⟨⟩

mutual

theorem blames_resolveNested (grammar : Grammar) :
    ∀ (children : List ChainSpec), (∀ t ∈ nestedAmong children, t ∈ chains) →
      ∀ (parent : SyntaxTree) (forest : Forest),
        Blames chains (Traced.resolveNested grammar parent children forest)
  | [], _, _, _ => .of_ok rfl
  | s :: rest, hchains, parent, forest => by
    rw [nestedAmong, List.forall_mem_cons, List.forall_mem_append] at hchains
    obtain ⟨hs, hbelow, hbehind⟩ := hchains
    rw [Traced.resolveNested, resolveNestedBy]
    exact (blames_resolveChild grammar s hs hbelow parent forest).bind fun grown =>
      blames_resolveNested grammar rest hbehind parent grown

theorem blames_resolveChild (grammar : Grammar) :
    ∀ (s : ChainSpec), s ∈ chains → (∀ t ∈ s.nested, t ∈ chains) →
      ∀ (parent : SyntaxTree) (forest : Forest),
        Blames chains (Traced.resolveChild grammar parent s forest)
  | .mk entry _ none _, _, _, _, _ => by
    refine .of_not fun e he => ?_
    obtain rfl := Except.error.inj he
    exact (ChainError.OfShape.missing entry).not_ofRange
  | .mk entry children (some x) editor, hs, hbelow, parent, forest => by
    have hx : (ChainSpec.mk entry children (some x) editor).extractor = some x := rfl
    cases hcheck : (checkRanges entry x.name parent.parsed.length 0
      (x.ranges parent parent.parsed)).result with
    | error e =>
      -- The check leaves no event itself, so the last one is the call of the extractor before it.
      rw [Traced.resolveChild_of_error hx hcheck]
      intro e' he' _
      obtain rfl := Except.error.inj he'
      obtain ⟨range, hmisfit, rfl⟩ := result_checkRanges_eq_error_iff.1 hcheck
      exact ⟨_, hs, x, parent, range, hx, hmisfit, rfl, rfl⟩
    | ok =>
      have hfound : Blames chains ((x.ranges parent parent.parsed).foldlM
          (Traced.resolveFound grammar parent entry children editor) forest) := by
        apply Blames.foldlM
        intro forest range
        refine (blames_resolveRange grammar parent entry editor _ range).bind fun tree => ?_
        refine .bind (.of_ok rfl) fun _ => ?_
        exact blames_resolveNested grammar children hbelow tree (forest.insert tree)
      rw [Traced.resolveChild_of_ok hx hcheck]
      exact hfound.of_behind rfl [.picked x.name parent.parsed] rfl

end

theorem blames_resolve (grammar : Grammar) (buffer : Bytes) (spec : ChainSpec) :
    Blames spec.nested (Traced.resolve grammar buffer spec) := by
  rw [Traced.resolve, resolveBy]
  refine .bind (.of_not fun e he => (ofShape_of_validate he).not_ofRange) fun _ => ?_
  refine .bind (.of_not fun e he => ?_) fun root => ?_
  · obtain ⟨cause, rfl⟩ := error_of_parseRegion he
    rintro ⟨⟩
  · refine .bind (.of_ok rfl) fun _ => ?_
    refine .bind ?_ fun forest => ?_
    · rw [nested_eq]
      exact blames_resolveNested grammar spec.children (fun t ht => ht) root _
    · exact .bind (.of_ok rfl) fun _ => .of_ok rfl

/-! ## The check and what relies on it -/

/-- The check of ranges is exact, whatever an extractor returns. It fails if and only if some range
is inverted or ends behind the parent, and it names the first one. Up to there it warns about each
range that starts before one of those before it has ended; if it does not fail, there is no warning
if and only if any two ranges are in order.

Where it fails, the extractor was called and nothing else happens; otherwise all ranges fit, and what
is done for them follows. No slice is out of bounds, neither there nor in a whole resolution, and a
resolution that fails for a range has nothing behind the call of the extractor. -/
theorem ranges_checked_exactly :
    (∀ (language : Language) (extractor : String) (length : Nat) (ranges : List Span),
      let check := checkRanges language extractor length 0 ranges
      ((∃ e, check.result = .error e) ↔
        ∃ range ∈ ranges, range.stop < range.start ∨ length < range.stop) ∧
      (∀ e, check.result = .error e ↔ ∃ range, FirstMisfit length ranges range ∧
        e = .invalidRange language extractor range length) ∧
      (∀ record, record ∈ check.records ↔
        ∃ before range behind, ranges = before ++ range :: behind ∧
          (∀ earlier ∈ before, earlier.fits length = true) ∧ range.fits length = true ∧
          (∃ earlier ∈ before, range.start < earlier.stop) ∧
          record = overlapWarning language extractor range (furthest 0 before)) ∧
      (check.result = .ok () →
        (check.records = [] ↔ ranges.Pairwise fun a b => a.stop ≤ b.start))) ∧
    (∀ (grammar : Grammar) (parent : SyntaxTree) (s : ChainSpec) (x : Extractor) (forest : Forest),
      s.extractor = some x →
      let ranges := x.ranges parent parent.parsed
      let check := checkRanges s.entry x.name parent.parsed.length 0 ranges
      let found := ranges.foldlM
        (Traced.resolveFound grammar parent s.entry s.children s.editor) forest
      (Traced.resolveChild grammar parent s forest).outcome = resolveChild grammar parent s forest ∧
      (∀ e, check.result = .error e →
        Traced.resolveChild grammar parent s forest =
          ⟨[.picked x.name parent.parsed], ⟨check.records, .error e⟩⟩) ∧
      (check.result = .ok () →
        (∀ range ∈ ranges, range.start ≤ range.stop ∧ range.stop ≤ parent.parsed.length) ∧
        Traced.resolveChild grammar parent s forest =
          ⟨.picked x.name parent.parsed :: found.events,
            ⟨check.records ++ found.outcome.records, found.outcome.result⟩⟩) ∧
      Checked.resolveChild grammar parent s forest =
        (resolveChild grammar parent s forest).mapError .chain) ∧
    ∀ (grammar : Grammar) (buffer : Bytes) (spec : ChainSpec),
      (Traced.resolve grammar buffer spec).outcome = resolve grammar buffer spec ∧
      Checked.resolve grammar buffer spec = (resolve grammar buffer spec).mapError .chain ∧
      Blames spec.nested (Traced.resolve grammar buffer spec) := by
  refine ⟨fun language extractor length ranges => ⟨?_, ?_, ?_, ?_⟩, ?_, ?_⟩
  · exact exists_result_checkRanges_eq_error_iff
  · exact fun e => result_checkRanges_eq_error_iff
  · intro record
    rw [mem_records_checkRanges_iff]
    simp only [lt_furthest_iff, Nat.not_lt_zero, false_or]
  · intro hok
    rw [records_checkRanges_eq_nil_iff (result_checkRanges_eq_ok_iff.1 hok)]
    exact and_iff_right fun range _ => Nat.zero_le _
  · intro grammar parent s x forest hx
    refine ⟨Traced.outcome_resolveChild grammar s parent forest, ?_, fun hok => ⟨?_, ?_⟩, ?_⟩
    · exact fun e he => Traced.resolveChild_of_error hx he forest
    · exact fun range hrange => Span.fits_iff.1 (result_checkRanges_eq_ok_iff.1 hok range hrange)
    · exact Traced.resolveChild_of_ok hx hok forest
    · exact Checked.resolveChild_eq grammar s parent forest
  · intro grammar buffer spec
    exact ⟨Traced.outcome_resolve grammar buffer spec, Checked.resolve_eq grammar buffer spec,
      blames_resolve grammar buffer spec⟩

namespace Sample

/-- Picks two ranges that touch. -/
def touching : Extractor :=
  ⟨"touching", fun _ _ => [⟨0, 3⟩, ⟨3, 7⟩]⟩

/-- Picks two ranges in the wrong order, one that reaches too far, and one that is inverted. -/
def jumbled : Extractor :=
  ⟨"jumbled", fun _ _ => [⟨4, 7⟩, ⟨0, 3⟩, ⟨2, 100⟩, ⟨9, 1⟩]⟩

/-- Style sheets that an extractor picks. -/
def sheets (x : Extractor) : ChainSpec :=
  .mk .css [] (some x) none

/-- A page with style sheets in order, and with some that are not. -/
def mixed : ChainSpec :=
  .mk .html [sheets touching, sheets jumbled] none none

end Sample

/-- Of the ranges that are not in order the one that reaches too far is named, and the page's
resolution ends with picking them. -/
theorem ranges_checked_exactly_mixed :
    (FirstMisfit 14 [⟨4, 7⟩, ⟨0, 3⟩, ⟨2, 100⟩, ⟨9, 1⟩] ⟨2, 100⟩ ∧
      overlapWarning .css "jumbled" ⟨0, 3⟩ 7 ∈
        (checkRanges .css "jumbled" 14 0 [⟨4, 7⟩, ⟨0, 3⟩, ⟨2, 100⟩, ⟨9, 1⟩]).records ∧
      (Traced.resolveChild Sample.grammar Sample.pageTree (Sample.sheets Sample.jumbled)
        Sample.forest).events = [.picked "jumbled" Sample.buffer]) ∧
    (checkRanges .css "touching" 14 0 [⟨0, 3⟩, ⟨3, 7⟩]).records = [] ∧
      (Traced.resolveChild Sample.grammar Sample.pageTree (Sample.sheets Sample.touching)
        Sample.forest).events.head? = some (.picked "touching" Sample.buffer) ∧
    ∃ bytes, bytes.length = 14 ∧
      (Traced.resolve Sample.grammar Sample.buffer Sample.mixed).events.getLast? =
        some (.picked "jumbled" bytes) := by
  obtain ⟨hcheck, hchild, hresolve⟩ := ranges_checked_exactly
  have hmisfit : FirstMisfit 14 [⟨4, 7⟩, ⟨0, 3⟩, ⟨2, 100⟩, ⟨9, 1⟩] ⟨2, 100⟩ :=
    ⟨[⟨4, 7⟩, ⟨0, 3⟩], [⟨9, 1⟩], rfl, by decide, by decide⟩
  obtain ⟨-, herror, hwarned, -⟩ :=
    hcheck .css "jumbled" 14 [⟨4, 7⟩, ⟨0, 3⟩, ⟨2, 100⟩, ⟨9, 1⟩]
  have hjumbled := (herror _).2 ⟨_, hmisfit, rfl⟩
  have htouching : (checkRanges .css "touching" 14 0 [⟨0, 3⟩, ⟨3, 7⟩]).result = .ok () := rfl
  obtain ⟨-, -, -, hquiet⟩ := hcheck .css "touching" 14 [⟨0, 3⟩, ⟨3, 7⟩]
  refine ⟨⟨hmisfit, ?_, ?_⟩, ?_, ?_, ?_⟩
  · exact (hwarned _).2 ⟨[⟨4, 7⟩], ⟨0, 3⟩, [⟨2, 100⟩, ⟨9, 1⟩], rfl, by decide, by decide, by decide,
      rfl⟩
  · obtain ⟨-, hfailed, -⟩ := hchild Sample.grammar Sample.pageTree (Sample.sheets Sample.jumbled)
      Sample.jumbled Sample.forest rfl
    exact congrArg Traced.events (hfailed _ hjumbled)
  · exact (hquiet htouching).2 (by decide)
  · obtain ⟨-, -, hpassed, -⟩ := hchild Sample.grammar Sample.pageTree
      (Sample.sheets Sample.touching) Sample.touching Sample.forest rfl
    rw [(hpassed htouching).2]
    rfl
  · obtain ⟨houtcome, -, hblames⟩ := hresolve Sample.grammar Sample.buffer Sample.mixed
    have hrun : (resolve Sample.grammar Sample.buffer Sample.mixed).result =
        .error (.invalidRange .css "jumbled" ⟨2, 100⟩ 14) := rfl
    rw [← houtcome] at hrun
    obtain ⟨s, -, x, parent, range, -, -, heq, hlast⟩ := hblames _ hrun (.invalid ..)
    obtain ⟨-, hname, -, hlength⟩ := ChainError.invalidRange.inj heq
    rw [← hname] at hlast
    exact ⟨parent.parsed, hlength.symm, hlast⟩

end ChainSpec

end Polyglot
