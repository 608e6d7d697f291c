import Polyglot.Proofs.OffsetMap.Shifts
import Polyglot.Proofs.Syntax.Locations

/-!
# Trees whose map shifts

Where the map of a tree shifts, so do the locations: the origin is the stretch of the source that
is as long as the parsed bytes, and every node of a regular parse stands where its span is, moved
by the one distance. Nodes are moved into their parents while the tree is built; here that moves
none of them, for a map that shifts keeps one span inside the other.
-/

set_option autoImplicit false

namespace Polyglot

/-- What a parse of so many bytes is like: all spans lie in the bytes, and those of children lie in
those of their parents. -/
structure ParseTree.Regular (length : Nat) (root : ParseTree) : Prop where
  nested : root.Nested
  fits : ∀ n ∈ root.preorder, n.span.fits length = true

namespace SyntaxTree

variable {t : SyntaxTree} {id base : Nat}

theorem Built.span_origin_of_shifts (h : t.Built) (hm : t.map.Shifts base)
    (hbound : base + t.map.parsedLength ≤ t.source.lines.length) :
    t.origin.span = ⟨base, base + t.map.parsedLength⟩ := by
  rw [h.origin, hm.targetSpan]
  exact Source.span_locate_of_le (Nat.le_add_right _ _) hbound

/-- Where the spans of a parse lie in so many bytes, those of the nodes do. -/
theorem Built.fits_of_preorder (h : t.Built) {length : Nat}
    (hfits : ∀ n ∈ t.parse.root.preorder, n.span.fits length = true) (hid : id < t.nodes.size) :
    (t.node id).parsed.fits length = true := by
  obtain ⟨parent, slot, sub, hp⟩ := h.exists_place hid
  rw [h.parsed_of_place hp]
  exact hfits _ (hp.mem_preorder (ParseTree.label_mem_preorder sub))

/-- The span of a node lies in the parsed bytes. -/
theorem Built.fits_parsed (h : t.Built) {length : Nat} (hr : t.parse.root.Regular length)
    (hid : id < t.nodes.size) : (t.node id).parsed.fits length = true :=
  h.fits_of_preorder hr.fits hid

/-- Every node of a regular parse is its span, moved by the distance of the map. -/
theorem Built.span_location_of_shifts (h : t.Built) (hm : t.map.Shifts base)
    (hbound : base + t.map.parsedLength ≤ t.source.lines.length)
    (hr : t.parse.root.Regular t.map.parsedLength) (hid : id < t.nodes.size) :
    (t.node id).location.span = (t.node id).parsed.shift base := by
  have hfits := h.fits_parsed hr hid
  obtain ⟨parent, slot, sub, hp⟩ := h.exists_place hid
  rw [h.parsed_of_place hp] at hfits ⊢
  rw [h.location_of_place hp]
  have himage : ∀ {span : Span}, span.fits t.map.parsedLength = true →
      t.map.mapRange span.start span.stop = ⟨base + span.start, base + span.stop⟩ := by
    intro span hfits
    rw [Span.fits_iff] at hfits
    exact hm.mapRange hfits.1 hfits.2
  have hunmoved := hp.locateIn_eq_of (P := fun _ => True) ?_ hr.nested trivial
  · rw [hunmoved]
    unfold ParseTree.locateIn
    rw [himage hfits]
    rw [Span.fits_iff] at hfits
    show (t.source.locate (base + sub.label.span.start) (base + sub.label.span.stop)).span = _
    rw [Source.span_locate_of_le (by omega) (by omega)]
    simp only [Span.shift, Nat.add_comm base]
  · intro outer houter n hn hin _
    refine ⟨trivial, ?_⟩
    rw [himage (hr.fits outer houter), himage (hr.fits n hn)]
    exact ⟨Nat.add_le_add_left hin.1 base, Nat.add_le_add_left hin.2 base⟩

end SyntaxTree

end Polyglot
