import UiCatalog.Text.Position
/-!
# Line starts

A text is cut into lines at its line feeds. The byte offsets at which lines start turn an offset
into a position; an offset past the end of the text counts on in the last line.
-/

namespace UiCatalog

/-- A range of a text by byte offsets, the stop not included. -/
structure Extent where
  start : Nat
  stop : Nat
deriving DecidableEq

/-- The offsets at which the lines after the first one start, in ascending order. -/
structure LineStarts where
  later : List Nat
deriving DecidableEq

namespace LineStarts

/-- The starts of the lines that begin inside `cs`, whose first character is at `offset`. -/
def after (offset : Nat) : List Char → List Nat
  | [] => []
  | c :: cs =>
    if c = '\n' then (offset + 1) :: after (offset + 1) cs else after (offset + c.utf8Size) cs

def ofText (text : String) : LineStarts :=
  ⟨after 0 text.toList⟩

def count (l : LineStarts) : Nat :=
  l.later.length + 1

/-- The position of a byte offset: the last line that starts at or before it, and the distance from
that start. -/
def position (l : LineStarts) (offset : Nat) : Position :=
  let begun := l.later.takeWhile (· ≤ offset)
  ⟨begun.length, offset - begun.getLastD 0⟩

def span (l : LineStarts) (e : Extent) : Span :=
  ⟨l.position e.start, l.position e.stop⟩

end LineStarts

end UiCatalog
