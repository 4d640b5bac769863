import UiCatalog.Text.Position
/-!
# Line tables

The offsets at which the lines of a text start, as a table in which the line of an offset is found
by halving. The table holds machine numbers, of which there are only so many: a sum that is no
machine number, a difference below zero and a place outside the table have no value.
-/

namespace UiCatalog

def Text.bytes (text : String) : List UInt8 :=
  text.toByteArray.data.toList

def Text.lineFeed : UInt8 := 10

/-- The offsets at which lines start, the first line's included, in ascending order. -/
structure LineTable where
  starts : Array Nat

namespace LineTable

/-- The sum, if it is below the limit of machine numbers. -/
def sum? (limit a b : Nat) : Option Nat :=
  if a + b < limit then some (a + b) else none

def difference? (a b : Nat) : Option Nat :=
  if b ≤ a then some (a - b) else none

/-- The table with the lines that start behind the line feeds among more bytes, the first of which
is at `offset`. The offset of a byte is cut down to a machine number. -/
def extend? (limit : Nat) (t : LineTable) (offset : Nat) : List UInt8 → Option LineTable
  | [] => some t
  | byte :: bytes =>
    if byte = Text.lineFeed then
      (sum? limit (offset % limit) 1).bind fun start =>
        extend? limit ⟨t.starts.push start⟩ (offset + 1) bytes
    else extend? limit t (offset + 1) bytes

/-- The table of a text, in machine numbers below `limit`. -/
def ofText? (limit : Nat) (text : String) : Option LineTable :=
  extend? limit ⟨#[0]⟩ 0 (Text.bytes text)

def count (t : LineTable) : Nat :=
  t.starts.size

/-- The last of `size` places from `base` on that does not hold more than `x`, and the first of them
if all hold more. The places are halved until one is left. -/
def narrow (xs : Array Nat) (x base size : Nat) (h : base + size ≤ xs.size) : Nat :=
  if _hsize : 1 < size then
    if x < xs[base + size / 2] then narrow xs x base (size - size / 2) (by omega)
    else narrow xs x (base + size / 2) (size - size / 2) (by omega)
  else base
termination_by size

def compareAt (xs : Array Nat) (x place : Nat) : Except Nat Nat :=
  match xs[place]? with
  | none => .error place
  | some y => if y = x then .ok place else if y < x then .error (place + 1) else .error place

/-- The place of a number in ascending numbers, or else the place at which it could be inserted. -/
def search (xs : Array Nat) (x : Nat) : Except Nat Nat :=
  compareAt xs x (narrow xs x 0 xs.size (Nat.le_of_eq (Nat.zero_add _)))

/-- The line of an offset: the one that starts there, or else the one before the place at which the
offset could be inserted. -/
def line? (t : LineTable) (offset : Nat) : Option Nat :=
  match search t.starts offset with
  | .ok line => some line
  | .error 0 => none
  | .error (line + 1) => some line

def position? (t : LineTable) (offset : Nat) : Option Position := do
  let line ← t.line? offset
  let start ← t.starts[line]?
  let column ← difference? offset start
  return ⟨line, column⟩

end LineTable

end UiCatalog
