import UiCatalog.Text.Split
/-!
# UUIDs

A UUID is 32 hexadecimal digits. It is written in groups of 8, 4, 4, 4 and 12 with hyphens between
them, and read bare, hyphenated, in braces or after `urn:uuid:`, in either case of letters.
-/

namespace UiCatalog

structure Uuid where
  digits : List (Fin 16)
  length_digits : digits.length = 32
deriving DecidableEq

namespace Uuid

/-- Why a text is no UUID. Lengths and positions count UTF-8 bytes. -/
inductive Fault where
  | length (found : Nat)
  | character (found : Char) (index : Nat)
  | groupCount (found : Nat)
  | groupLength (group expected found : Nat)
deriving DecidableEq

def Fault.message : Fault → String
  | .length found => s!"invalid length: found {found}"
  | .character found index => s!"invalid character: found `{found}` at {index}"
  | .groupCount found => s!"invalid group count: expected 5, found {found}"
  | .groupLength group expected found =>
    s!"invalid group length in group {group}: expected {expected}, found {found}"

def hexDigit? (c : Char) : Option (Fin 16) :=
  if '0' ≤ c ∧ c ≤ '9' then some (Fin.ofNat 16 (c.toNat - '0'.toNat))
  else if 'a' ≤ c ∧ c ≤ 'f' then some (Fin.ofNat 16 (c.toNat - 'a'.toNat + 10))
  else if 'A' ≤ c ∧ c ≤ 'F' then some (Fin.ofNat 16 (c.toNat - 'A'.toNat + 10))
  else none

def hexChar (d : Fin 16) : Char :=
  if d.val < 10 then Char.ofNat ('0'.toNat + d.val) else Char.ofNat ('a'.toNat + (d.val - 10))

/-- The hyphenated form in lower case. -/
def text (u : Uuid) : String :=
  let d := u.digits.map hexChar
  let group (start length : Nat) := (d.drop start).take length
  String.ofList (group 0 8 ++ '-' :: group 8 4 ++ '-' :: group 12 4 ++ '-' :: group 16 4 ++
    '-' :: group 20 12)

def byteLength (cs : List Char) : Nat :=
  (String.ofList cs).utf8ByteSize

def ofDigits? (cs : List Char) : Option Uuid :=
  match cs.mapM hexDigit? with
  | some digits => if h : digits.length = 32 then some ⟨digits, h⟩ else none
  | none => none

def groupLengths : List Nat :=
  [8, 4, 4, 4, 12]

def ofHyphenated? (cs : List Char) : Option Uuid :=
  let groups := Text.splitAt '-' cs
  if groups.map List.length = groupLengths then ofDigits? groups.flatten else none

/-- The part of a text inside braces or after `urn:uuid:`, with the number of bytes in front. -/
def enclosed? (cs : List Char) : Option (Nat × List Char) :=
  match cs with
  | '{' :: inner => if inner.getLast? = some '}' then some (1, inner.dropLast) else none
  | _ => if "urn:uuid:".toList.isPrefixOf cs then some (9, cs.drop 9) else none

/-- The first character that is neither a digit nor a hyphen, with its position. -/
def strayCharacter? (index : Nat) : List Char → Option (Char × Nat)
  | [] => none
  | c :: cs =>
    if c == '-' || (hexDigit? c).isSome then strayCharacter? (index + c.utf8Size) cs
    else some (c, index)

/-- The first of the leading groups that has another length than it should, or the last group. -/
def groupFault (parts : List (List Char)) (length : Nat) : Fault :=
  match (parts.zip groupLengths).zipIdx.find? fun ((part, expected), group) =>
      group < 4 && part.length != expected with
  | some ((part, expected), group) => .groupLength group expected part.length
  | none => .groupLength 4 12 (length - 24)

/-- What is wrong with a text of `length` bytes whose digits were looked for in `scanned`, which
starts at `offset`. A text that is `bare` may be without hyphens if its length is right. -/
def fault (length offset : Nat) (scanned : List Char) (bare : Bool) : Fault :=
  if length = 0 ∨ 45 < length then .length length
  else
    match strayCharacter? offset scanned with
    | some (c, index) => .character c index
    | none =>
      let parts := Text.splitAt '-' scanned
      if bare ∧ parts.length = 1 then .length length
      else if parts.length ≠ 5 then .groupCount parts.length
      else groupFault parts length

def hyphenatedPart? (cs : List Char) : Option (List Char) :=
  if byteLength cs = 36 then some cs
  else
    match enclosed? cs with
    | some (_, inner) => if byteLength inner = 36 then some inner else none
    | none => none

def parse (s : String) : Except Fault Uuid :=
  let cs := s.toList
  match ofDigits? cs, hyphenatedPart? cs with
  | some u, _ => .ok u
  | none, some part =>
    match ofHyphenated? part with
    | some u => .ok u
    | none => .error (fault (byteLength part) 0 part false)
  | none, none =>
    match enclosed? cs with
    | some (offset, inner) => .error (fault (byteLength cs) offset inner false)
    | none => .error (fault (byteLength cs) 0 cs true)

end Uuid

end UiCatalog
