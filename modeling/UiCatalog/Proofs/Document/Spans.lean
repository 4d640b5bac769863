import UiCatalog.Proofs.Block.Placed
import UiCatalog.Proofs.Text.LineTable
import UiCatalog.Proofs.Token.Tiling
/-!
# Spans of a document

Positions tell the offsets in a text exactly and in their order. So what is a range of tokens has a
span that starts before it stops, and only the span of a fault at the end of the text is empty.
-/

namespace UiCatalog

instance : LE Position :=
  ⟨fun a b => a.line < b.line ∨ a.line = b.line ∧ a.column ≤ b.column⟩

namespace Position

variable {a b : Position}

private theorem lt_irrefl (a : Position) : ¬a < a := by
  rintro (hline | ⟨-, hcolumn⟩)
  · exact Nat.lt_irrefl _ hline
  · exact Nat.lt_irrefl _ hcolumn

private theorem le_refl (a : Position) : a ≤ a :=
  .inr ⟨rfl, Nat.le_refl _⟩

private theorem le_of_lt (h : a < b) : a ≤ b :=
  h.imp_right (And.imp_right Nat.le_of_lt)

end Position

private theorem TokenRange.start_lt_stop {ts : List Token} {e : Extent} (h : TokenRange ts e)
    (hts : ∀ t ∈ ts, t.start < t.stop) (horder : ts.Pairwise fun t u => t.stop ≤ u.start) :
    e.start < e.stop := by
  cases h with
  | @token t mem => exact hts t mem
  | @run t u order =>
    have ht := hts t (order.mem List.mem_cons_self)
    have hu := hts u (order.mem (List.mem_cons_of_mem t List.mem_cons_self))
    have hpair : [t, u].Pairwise fun t u => t.stop ≤ u.start := horder.sublist order
    have hbetween : t.stop ≤ u.start := List.rel_of_pairwise_cons hpair (List.mem_singleton_self u)
    exact ht.trans (hbetween.trans_lt hu)

namespace LineStarts

variable {text : String} {e : Extent}

private theorem position_injective (text : String) : Function.Injective (ofText text).position := by
  intro o p heq
  rcases Nat.lt_trichotomy o p with hlt | hsame | hgt
  · exact absurd (heq ▸ position_lt text hlt) (Position.lt_irrefl _)
  · exact hsame
  · exact absurd (heq ▸ position_lt text hgt) (Position.lt_irrefl _)

private theorem span_forward (h : e.start ≤ e.stop) :
    ((ofText text).span e).start ≤ ((ofText text).span e).stop := by
  rcases Nat.lt_or_eq_of_le h with hlt | heq
  · exact Position.le_of_lt (position_lt text hlt)
  · rw [span, heq]
    exact Position.le_refl _

private theorem span_tokenRange (h : TokenRange (Token.scan text) e) :
    ((ofText text).span e).start < ((ofText text).span e).stop := by
  have htiles : Token.Tiles 0 text.toList (Token.scan text) := Token.tiles_iff.mpr rfl
  exact position_lt text (h.start_lt_stop (fun t ht => htiles.nonempty ht) htiles.order)

end LineStarts

namespace Document

variable {source : SourceId} {text : String}

private theorem span_of_mem_blocks {b : Block} (h : b ∈ (ofText source text).blocks) :
    ∃ span, b.origin = some ⟨source, span⟩ ∧ span.start < span.stop := by
  obtain ⟨⟨block, extent⟩, hblock, rfl⟩ := List.mem_map.mp h
  exact ⟨_, rfl, LineStarts.span_tokenRange (Block.readAll_tokenRange hblock)⟩

private theorem span_of_mem_faults {f : LocatedFault} (h : f ∈ (ofText source text).faults) :
    f.span.start ≤ f.span.stop := by
  obtain ⟨fault, hfault, rfl⟩ := List.mem_map.mp h
  have hplaced := Block.readAll_isPlaced (Token.scan text) fault hfault
  cases hplaced with
  | atEnd wanted => exact LineStarts.span_forward (Nat.le_refl _)
  | range hrange => exact Position.le_of_lt (LineStarts.span_tokenRange (hrange _))

end Document

/-- What holds of the positions and spans in a text. -/
structure LineStarts.IsExact (text : String) : Prop where
  /-- The position of an offset has the line feeds before the offset as its line and the distance
  from the last one as its column, and no other position has. -/
  located : ∀ offset p, p.IsAt (Text.bytes text) offset ↔ p = (ofText text).position offset
  count : (ofText text).count = (Text.bytes text).count Text.lineFeed + 1
  increasing : ∀ o p, o < p → (ofText text).position o < (ofText text).position p
  injective : Function.Injective (ofText text).position
  /-- A table of machine numbers that are enough for the text tells the same, and nothing fails on
  the way. Offsets have 32 bits, so the limit of their numbers is `2 ^ 32`. -/
  table : ∀ limit, text.utf8ByteSize < limit → ∃ t, LineTable.ofText? limit text = some t ∧
    t.count = (ofText text).count ∧
      ∀ offset, t.position? offset = some ((ofText text).position offset)
  span : ∀ e : Extent, e.start ≤ e.stop → ((ofText text).span e).start ≤ ((ofText text).span e).stop
  range : ∀ e, TokenRange (Token.scan text) e →
    ((ofText text).span e).start < ((ofText text).span e).stop
  block : ∀ source, ∀ b ∈ (Document.ofText source text).blocks,
    ∃ span, b.origin = some ⟨source, span⟩ ∧ span.start < span.stop
  fault : ∀ source, ∀ f ∈ (Document.ofText source text).faults, f.span.start ≤ f.span.stop

/-- Positions tell the offsets in a text exactly, also those past its end, and keep their order;
every span in the text goes forward. -/
theorem LineStarts.position_exact (text : String) : IsExact text where
  located _ _ := isAt_iff text
  count := count_ofText text
  increasing _ _ := position_lt text
  injective := position_injective text
  table _ := LineTable.ofText?_eq_some
  span _ := span_forward
  range _ := span_tokenRange
  block _ _ := Document.span_of_mem_blocks
  fault _ _ := Document.span_of_mem_faults

end UiCatalog
