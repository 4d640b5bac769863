/-!
# Positions in a text

Lines and columns count from zero, and columns count UTF-8 bytes; written out for people they count
from one. A span has both its ends inside.
-/

namespace UiCatalog

/-- A place in a text, ordered by line and then by column. -/
structure Position where
  line : Nat
  column : Nat
deriving DecidableEq

namespace Position

instance : LT Position :=
  ⟨fun a b => a.line < b.line ∨ a.line = b.line ∧ a.column < b.column⟩

instance (a b : Position) : Decidable (a < b) :=
  inferInstanceAs (Decidable (a.line < b.line ∨ a.line = b.line ∧ a.column < b.column))

def compare (a b : Position) : Ordering :=
  if a < b then .lt else if a = b then .eq else .gt

def earlier (a b : Position) : Position :=
  if b < a then b else a

def later (a b : Position) : Position :=
  if a < b then b else a

/-- A position for people: `line:column`, both from one. -/
def display (p : Position) : String :=
  s!"{p.line + 1}:{p.column + 1}"

end Position

/-- A range of a text by its first and its last position. -/
structure Span where
  start : Position
  stop : Position
deriving DecidableEq

namespace Span

/-- Whether a position is neither before the start nor after the stop. -/
def contains (s : Span) (p : Position) : Bool :=
  !(p < s.start) && !(s.stop < p)

def cover (a b : Span) : Span :=
  ⟨a.start.earlier b.start, a.stop.later b.stop⟩

end Span

/-- The number of a source within a load, in load order from zero. -/
abbrev SourceId := Nat

def SourceId.label (s : SourceId) : String :=
  s!"#{s}"

/-- Where something was declared: a source and a span of its text. -/
structure Origin where
  source : SourceId
  span : Span
deriving DecidableEq

def Origin.display (o : Origin) : String :=
  s!"{o.source.label}:{o.span.start.display}"

end UiCatalog
