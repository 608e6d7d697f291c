import Polyglot.Proofs.Chain.Ranges

/-!
# Observers who agree

Two observers who agree on each step agree on a whole resolution (`Observer.Agree.resolveBy`). They
need not agree on a slice that is out of bounds: behind the check of what an extractor returned there
is none.
-/

set_option autoImplicit false

namespace Polyglot

/-- The event is no slice that is out of bounds. -/
def Event.Sound : Event → Prop
  | .sliced range length => range.fits length = true
  | _ => True

variable {m m' : Type → Type} [Monad m] [Monad m']

/-- Two observers agree on what they see and take, in the sense of a relation between what they make
of it. What follows a step that they take has to agree only where the step ends well. -/
structure Observer.Agree (o : Observer m) (o' : Observer m')
    (R : {α : Type} → m α → m' α → Prop) : Prop where
  pure : ∀ {α : Type} (a : α), R (pure a) (pure a)
  bind : ∀ {α β : Type} {x : m α} {y : m' α} {f : α → m β} {g : α → m' β},
    R x y → (∀ a, R (f a) (g a)) → R (x >>= f) (y >>= g)
  see : ∀ e : Event, e.Sound → R (o.see e) (o'.see e)
  take : ∀ {α : Type} (x : Logged ChainError α), R (o.take x) (o'.take x)
  behind : ∀ {α β : Type} {x : Logged ChainError α} {f : α → m β} {g : α → m' β},
    (∀ a, x.result = .ok a → R (f a) (g a)) → R (o.take x >>= f) (o'.take x >>= g)

namespace Observer.Agree

open ChainSpec

variable {o : Observer m} {o' : Observer m'} {R : {α : Type} → m α → m' α → Prop}
  (h : o.Agree o' R) {grammar : Grammar}

include h

theorem foldlM {α β : Type} {f : β → α → m β} {g : β → α → m' β} {l : List α}
    (step : ∀ a ∈ l, ∀ b, R (f b a) (g b a)) (b : β) : R (l.foldlM f b) (l.foldlM g b) := by
  induction l generalizing b with
  | nil => exact h.pure b
  | cons a l ih =>
    rw [List.foldlM_cons, List.foldlM_cons]
    refine h.bind (step a List.mem_cons_self b) fun c => ?_
    exact ih (fun a ha => step a (List.mem_cons_of_mem _ ha)) c

theorem parseBy (language : Language) (occurrence : Nat) (bytes : Bytes) (map : OffsetMap)
    (source : Source) :
    R (parseBy o grammar language occurrence bytes map source)
      (parseBy o' grammar language occurrence bytes map source) :=
  h.bind (h.see _ trivial) fun _ => h.take _

theorem resolveRangeBy {parent : SyntaxTree} {range : Span}
    (hfits : range.fits parent.parsed.length = true) (language : Language)
    (editor : Option Editor) (occurrence : Nat) :
    R (resolveRangeBy o grammar parent language editor occurrence range)
      (resolveRangeBy o' grammar parent language editor occurrence range) := by
  refine h.bind (h.bind (h.see _ hfits) fun _ => h.pure _) fun slice => ?_
  refine h.bind ?_ fun _ => ?_
  · cases editor with
    | none => exact h.pure ()
    | some w => exact h.see _ trivial
  · refine h.bind (h.take _) fun edit => ?_
    refine h.bind (h.parseBy language occurrence edit.bytes _ parent.source) fun tree => ?_
    exact h.bind (h.take _) fun _ => h.pure tree

mutual

theorem resolveNestedBy : ∀ (children : List ChainSpec) (parent : SyntaxTree) (forest : Forest),
    R (resolveNestedBy o grammar parent children forest)
      (resolveNestedBy o' grammar parent children forest)
  | [], _, forest => h.pure forest
  | s :: rest, parent, forest =>
    h.bind (resolveChildBy s parent forest) fun grown => resolveNestedBy rest parent grown

theorem resolveChildBy : ∀ (s : ChainSpec) (parent : SyntaxTree) (forest : Forest),
    R (resolveChildBy o grammar parent s forest) (resolveChildBy o' grammar parent s forest)
  | .mk _ _ none _, _, _ => h.take _
  | .mk entry children (some x) editor, parent, forest => by
    refine h.bind (h.see _ trivial) fun _ => ?_
    -- Behind the check, and only there, every range is known to fit.
    refine h.behind fun _ hchecked => ?_
    have hfits := result_checkRanges_eq_ok_iff.1 hchecked
    refine h.foldlM (fun range hrange forest => ?_) forest
    refine h.bind (h.resolveRangeBy (hfits range hrange) entry editor _) fun tree => ?_
    exact h.bind (h.see _ trivial) fun _ => resolveNestedBy children tree (forest.insert tree)

end

/-- Observers who agree on each step agree on a resolution. -/
theorem resolveBy (grammar : Grammar) (buffer : Bytes) (spec : ChainSpec) :
    R (resolveBy o grammar buffer spec) (resolveBy o' grammar buffer spec) := by
  refine h.bind (h.take _) fun _ => ?_
  refine h.bind (h.parseBy spec.entry 0 buffer _ _) fun root => ?_
  refine h.bind (h.see _ trivial) fun _ => ?_
  refine h.bind (h.resolveNestedBy spec.children root _) fun forest => ?_
  exact h.bind (h.take _) fun _ => h.pure forest

end Observer.Agree

end Polyglot
