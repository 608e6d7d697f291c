import Polyglot.Chain.Spec
import Polyglot.Forest
import Polyglot.Log

/-!
# Resolving a chain

The root language parses the whole buffer. For each nested chain the extractor picks ranges
of the parent's parsed bytes; they are checked all together, and then each in turn is sliced,
edited, parsed and registered, and the chains nested in it are resolved before the next
range. The offset map of a new tree goes from its parsed bytes through the slice and on
through the map of the parent, so it always leads back to the one source.

A resolution calls the grammar, the extractors and the editors, takes slices and registers trees. It
can be watched: an observer is told of each of these events before it happens, and takes up the
outcome of each step that may fail. `resolve` is the resolution that nobody watches.
-/

set_option autoImplicit false

namespace Polyglot

/-- What a resolution does besides reckoning. -/
inductive Event where
  | parsed (language : Language) (bytes : Bytes)
  | picked (extractor : String) (bytes : Bytes)
  | sliced (range : Span) (length : Nat)
  | edited (editor : String) (slice : Bytes)
  | registered (language : Language) (occurrence : Nat)
deriving DecidableEq, Repr

/-- Watches a resolution: sees every event before it happens, and takes every step that may fail. -/
structure Observer (m : Type → Type) where
  see : Event → m Unit
  take : {α : Type} → Logged ChainError α → m α

namespace Observer

/-- Nobody watches. -/
def absent : Observer (Logged ChainError) :=
  ⟨fun _ => pure (), fun x => x⟩

/-- Sees every range that is sliced. -/
def bounds {m : Type → Type} (o : Observer m) : Bounds m :=
  fun length range => o.see (.sliced range length)

end Observer

namespace ChainSpec

/-- Checks what an extractor returned on a parent of `length` bytes. A range that cannot be
sliced is an error; one that starts before an earlier one ended is worth a warning. -/
def checkRanges (language : Language) (extractor : String) (length : Nat) :
    Nat → List Span → Logged ChainError Unit
  | _, [] => pure ()
  | reached, range :: rest => do
    if !range.fits length then
      throw (.invalidRange language extractor range length)
    if range.start < reached then
      Logged.warn (language.name ++ " extractor '" ++ extractor ++
        "' returned overlapping or unordered range " ++ range.text ++
        s!" (previous ended at {reached})")
    checkRanges language extractor length (max reached range.stop) rest

/-- The bytes that are parsed for a slice, and the map from them to the slice. -/
def prepare (language : Language) (occurrence : Nat) (editor : Option Editor)
    (slice : Bytes) (parent : SyntaxTree) : Except ChainError Edit :=
  match editor with
  | none => .ok (Edit.unchanged slice)
  | some w => (w.edit slice parent).mapError (.edit language occurrence w.name)

/-- The tree of some bytes of the source. -/
def parseRegion (grammar : Grammar) (language : Language) (occurrence : Nat) (bytes : Bytes)
    (map : OffsetMap) (source : Source) : Except ChainError SyntaxTree :=
  match grammar language bytes with
  | .error e => .error (.parse language occurrence e)
  | .ok parse => .ok (SyntaxTree.build language occurrence bytes parse map source)

section Observed

variable {m : Type → Type} [Monad m] (o : Observer m)

/-- Has the grammar parse some bytes of the source. -/
def parseBy (grammar : Grammar) (language : Language) (occurrence : Nat) (bytes : Bytes)
    (map : OffsetMap) (source : Source) : m SyntaxTree := do
  o.see (.parsed language bytes)
  o.take (.of (parseRegion grammar language occurrence bytes map source))

/-- The tree of one range of a parent: the range is sliced, the editor, if there is one, is
called on the slice, and the grammar on what the editor makes of it. -/
def resolveRangeBy (grammar : Grammar) (parent : SyntaxTree) (language : Language)
    (editor : Option Editor) (occurrence : Nat) (range : Span) : m SyntaxTree := do
  let slice ← parent.parsed.sliceBy o.bounds range.start range.stop
  editor.forM fun w => o.see (.edited w.name slice)
  let edit ← o.take (.of (prepare language occurrence editor slice parent))
  let map := (edit.map.shiftTargets range.start).andThen parent.map
  let tree ← parseBy o grammar language occurrence edit.bytes map parent.source
  o.take (.debug (s!"{language.name} occurrence {occurrence} from {parent.language.name} " ++
    s!"parent bytes {range.text} -> {tree.origin.span.text}"))
  return tree

mutual

/-- Adds the trees that some nested chains find in a parent. -/
def resolveNestedBy (grammar : Grammar) (parent : SyntaxTree) :
    List ChainSpec → Forest → m Forest
  | [], forest => return forest
  | s :: rest, forest => do
    let forest ← resolveChildBy grammar parent s forest
    resolveNestedBy grammar parent rest forest

/-- Adds the trees that one nested chain finds in a parent. -/
def resolveChildBy (grammar : Grammar) (parent : SyntaxTree) :
    ChainSpec → Forest → m Forest
  | .mk entry _ none _, _ => o.take (throw (.missingExtractor entry))
  | .mk entry children (some extractor) editor, forest => do
    o.see (.picked extractor.name parent.parsed)
    let ranges := extractor.ranges parent parent.parsed
    o.take (checkRanges entry extractor.name parent.parsed.length 0 ranges)
    ranges.foldlM (fun forest range => do
      let tree ← resolveRangeBy o grammar parent entry editor (forest.occurrences entry) range
      o.see (.registered tree.language tree.occurrence)
      resolveNestedBy grammar tree children (forest.insert tree)) forest

end

/-- The forest of a buffer. -/
def resolveBy (grammar : Grammar) (buffer : Bytes) (spec : ChainSpec) : m Forest := do
  o.take (.of spec.validate)
  let source := Source.ofBytes buffer
  let root ← parseBy o grammar spec.entry 0 buffer (OffsetMap.identity buffer.length) source
  o.see (.registered root.language root.occurrence)
  let forest ← resolveNestedBy o grammar root spec.children ((Forest.empty source).insert root)
  o.take (.debug
    s!"resolved {forest.size} tree(s) across {forest.languages.length} language(s)")
  return forest

end Observed

/-- The tree of one range of a parent. -/
def resolveRange (grammar : Grammar) (parent : SyntaxTree) (language : Language)
    (editor : Option Editor) (occurrence : Nat) (range : Span) : Logged ChainError SyntaxTree :=
  resolveRangeBy .absent grammar parent language editor occurrence range

/-- Adds the trees that some nested chains find in a parent. -/
def resolveNested (grammar : Grammar) (parent : SyntaxTree) (children : List ChainSpec)
    (forest : Forest) : Logged ChainError Forest :=
  resolveNestedBy .absent grammar parent children forest

/-- Adds the trees that one nested chain finds in a parent. -/
def resolveChild (grammar : Grammar) (parent : SyntaxTree) (s : ChainSpec) (forest : Forest) :
    Logged ChainError Forest :=
  resolveChildBy .absent grammar parent s forest

/-- The forest of a buffer. -/
def resolve (grammar : Grammar) (buffer : Bytes) (spec : ChainSpec) : Logged ChainError Forest :=
  resolveBy .absent grammar buffer spec

section Equations

variable (grammar : Grammar) (parent : SyntaxTree) (forest : Forest)

theorem resolveRange_eq (language : Language) (editor : Option Editor) (occurrence : Nat)
    (range : Span) :
    resolveRange grammar parent language editor occurrence range = (do
      let edit ← Logged.of (prepare language occurrence editor
        (parent.parsed.slice range.start range.stop) parent)
      let map := (edit.map.shiftTargets range.start).andThen parent.map
      let tree ← Logged.of (parseRegion grammar language occurrence edit.bytes map parent.source)
      Logged.debug (s!"{language.name} occurrence {occurrence} from {parent.language.name} " ++
        s!"parent bytes {range.text} -> {tree.origin.span.text}")
      return tree) := by
  cases editor with
  | none => rfl
  | some w => rfl

@[simp] theorem resolveNested_nil : resolveNested grammar parent [] forest = pure forest := rfl

theorem resolveNested_cons (s : ChainSpec) (rest : List ChainSpec) :
    resolveNested grammar parent (s :: rest) forest =
      resolveChild grammar parent s forest >>= resolveNested grammar parent rest := rfl

@[simp] theorem resolveChild_none (entry : Language) (children : List ChainSpec)
    (editor : Option Editor) :
    resolveChild grammar parent (.mk entry children none editor) forest =
      throw (.missingExtractor entry) := rfl

theorem resolveChild_some (entry : Language) (children : List ChainSpec) (extractor : Extractor)
    (editor : Option Editor) :
    resolveChild grammar parent (.mk entry children (some extractor) editor) forest = (do
      let ranges := extractor.ranges parent parent.parsed
      checkRanges entry extractor.name parent.parsed.length 0 ranges
      ranges.foldlM (fun forest range => do
        let tree ← resolveRange grammar parent entry editor (forest.occurrences entry) range
        resolveNested grammar tree children (forest.insert tree)) forest) := rfl

theorem resolve_eq (buffer : Bytes) (spec : ChainSpec) :
    resolve grammar buffer spec = (do
      Logged.of spec.validate
      let source := Source.ofBytes buffer
      let root ← Logged.of
        (parseRegion grammar spec.entry 0 buffer (OffsetMap.identity buffer.length) source)
      let forest ← resolveNested grammar root spec.children ((Forest.empty source).insert root)
      Logged.debug
        s!"resolved {forest.size} tree(s) across {forest.languages.length} language(s)"
      return forest) := rfl

end Equations

end ChainSpec

end Polyglot
