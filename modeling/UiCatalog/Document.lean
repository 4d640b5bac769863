import UiCatalog.Block.Reading
import UiCatalog.Token.Scan
/-!
# Documents

A document is what a source text holds: its blocks, each with its origin, and its faults, each with
its span. Every document can be had, however broken the text.
-/

namespace UiCatalog

structure LocatedFault where
  fault : Fault
  span : Span
deriving DecidableEq

structure Document where
  blocks : List Block
  faults : List LocatedFault
deriving DecidableEq

namespace Document

/-- The document of a text of `size` bytes with the given tokens. -/
def ofTokens (source : SourceId) (lines : LineStarts) (size : Nat) (ts : List Token) : Document :=
  let reading := Block.readAll ts
  { blocks := reading.value.map fun (block, extent) =>
      { block with origin := some ⟨source, lines.span extent⟩ }
    faults := reading.faults.map fun fault => ⟨fault, lines.span (fault.extent size)⟩ }

def ofText (source : SourceId) (text : String) : Document :=
  ofTokens source (LineStarts.ofText text) text.utf8ByteSize (Token.scan text)

def isSound (d : Document) : Bool :=
  d.faults.isEmpty

end Document

end UiCatalog
