import UiCatalog.Json
import UiCatalog.Uuid
/-!
# Reading JSON

A JSON text is cut into marks, strings and words, and these are read from left to right with a stack
of the arrays and objects that are still open. The reader takes every JSON text and nothing else: no
comma at an end, no control character in a string, no surrogate by itself and no zero in front of a
number.
-/

namespace UiCatalog.Json

/-- What a JSON text stands for. -/
inductive Value where
  | null
  | truth (value : Bool)
  | number (value : Rat)
  | text (value : String)
  | array (elements : List Value)
  | object (members : List (String × Value))

inductive Mark where
  | openArray
  | closeArray
  | openObject
  | closeObject
  | colon
  | comma
deriving DecidableEq

/-- A piece of a JSON text; a word stands for a value by itself. -/
inductive Token where
  | mark (mark : Mark)
  | text (value : String)
  | word (value : Value)

/-! ## Strings -/

def escaped? : Char → Option Char
  | '"' => some '"'
  | '\\' => some '\\'
  | '/' => some '/'
  | 'b' => some '\x08'
  | 'f' => some '\x0c'
  | 'n' => some '\n'
  | 'r' => some '\r'
  | 't' => some '\t'
  | _ => none

def unit? (a b c d : Char) : Option Nat :=
  match Uuid.hexDigit? a, Uuid.hexDigit? b, Uuid.hexDigit? c, Uuid.hexDigit? d with
  | some a, some b, some c, some d => some (((a.val * 16 + b.val) * 16 + c.val) * 16 + d.val)
  | _, _, _, _ => none

def isHighSurrogate (n : Nat) : Bool :=
  0xd800 ≤ n && n < 0xdc00

def isLowSurrogate (n : Nat) : Bool :=
  0xdc00 ≤ n && n < 0xe000

def inFront (c : Char) (rest : Option (List Char × List Char)) : Option (List Char × List Char) :=
  rest.map fun (read, rest) => (c :: read, rest)

def readString : List Char → Option (List Char × List Char)
  | [] => none
  | '"' :: cs => some ([], cs)
  | '\\' :: 'u' :: a :: b :: c :: d :: cs =>
    match unit? a b c d with
    | none => none
    | some high =>
      if isHighSurrogate high then
        match cs with
        | '\\' :: 'u' :: a :: b :: c :: d :: cs =>
          match (unit? a b c d).filter isLowSurrogate with
          | none => none
          | some low =>
            inFront (Char.ofNat (0x10000 + (high - 0xd800) * 0x400 + (low - 0xdc00)))
              (readString cs)
        | _ => none
      else if isLowSurrogate high then none
      else inFront (Char.ofNat high) (readString cs)
  | '\\' :: c :: cs =>
    match escaped? c with
    | none => none
    | some c => inFront c (readString cs)
  | c :: cs => if c = '\\' ∨ c.toNat < 0x20 then none else inFront c (readString cs)

private theorem exists_of_inFront {c : Char} {found : Option (List Char × List Char)}
    {read rest : List Char} (h : inFront c found = some (read, rest)) :
    ∃ later, found = some (later, rest) := by
  obtain ⟨⟨later, _⟩, rfl, hread⟩ := Option.map_eq_some_iff.mp h
  exact ⟨later, by rw [(Prod.mk.inj hread).2]⟩

private theorem length_readString {cs read rest : List Char}
    (h : readString cs = some (read, rest)) : rest.length < cs.length := by
  fun_induction readString cs generalizing read with
  | case2 => simp_all
  | case5 | case8 | case10 | case12 =>
    rename_i ih
    obtain ⟨later, hlater⟩ := exists_of_inFront h
    have hshorter := ih hlater
    simp only [List.length_cons]
    omega
  | _ => simp at h

/-! ## Words -/

def readFraction : List Char → Option (List Char × List Char)
  | '.' :: cs =>
    if cs.takeWhile Char.isDigit = [] then none
    else some (cs.takeWhile Char.isDigit, cs.dropWhile Char.isDigit)
  | cs => some ([], cs)

def digits? (cs : List Char) : Option Nat :=
  if cs ≠ [] ∧ cs.all Char.isDigit then some (Nat.ofDigitChars 10 cs 0) else none

/-- The power of ten at the end of a number, if there is one. -/
def readExponent : List Char → Option Int
  | [] => some 0
  | c :: cs =>
    if c = 'e' ∨ c = 'E' then
      match cs with
      | '-' :: cs => (digits? cs).map fun n => -n
      | '+' :: cs => (digits? cs).map Nat.cast
      | cs => (digits? cs).map Nat.cast
    else none

def readSize (cs : List Char) : Option Rat :=
  let whole := cs.takeWhile Char.isDigit
  if whole = [] ∨ whole.head? = some '0' ∧ whole ≠ ['0'] then none
  else
    match readFraction (cs.dropWhile Char.isDigit) with
    | none => none
    | some (fraction, cs) =>
      (readExponent cs).map fun exponent : Int =>
        (Nat.ofDigitChars 10 (whole ++ fraction) 0 : Rat) *
          (10 : Rat) ^ (exponent - (fraction.length : Int))

def readNumber : List Char → Option Rat
  | '-' :: cs => (readSize cs).map fun size => -size
  | cs => readSize cs

def readWord : List Char → Option Value
  | ['n', 'u', 'l', 'l'] => some .null
  | ['t', 'r', 'u', 'e'] => some (.truth true)
  | ['f', 'a', 'l', 's', 'e'] => some (.truth false)
  | cs => (readNumber cs).map .number

/-! ## Tokens -/

def isSpace (c : Char) : Bool :=
  c = ' ' || c = '\t' || c = '\n' || c = '\r'

def mark? : Char → Option Mark
  | '[' => some .openArray
  | ']' => some .closeArray
  | '{' => some .openObject
  | '}' => some .closeObject
  | ':' => some .colon
  | ',' => some .comma
  | _ => none

def isWordChar (c : Char) : Bool :=
  c.isAlphanum || c = '+' || c = '-' || c = '.'

def scan (cs : List Char) : Option (List Token) :=
  match cs with
  | [] => some []
  | c :: cs =>
    if isSpace c then scan cs
    else if c = '"' then
      match _h : readString cs with
      | none => none
      | some (read, rest) => (scan rest).map (.text (String.ofList read) :: ·)
    else
      match mark? c with
      | some mark => (scan cs).map (.mark mark :: ·)
      | none =>
        if isWordChar c then
          match readWord (c :: cs.takeWhile isWordChar) with
          | none => none
          | some value => (scan (cs.dropWhile isWordChar)).map (.word value :: ·)
        else none
termination_by cs.length
decreasing_by
  · simp
  · have := length_readString ‹_›
    simp only [List.length_cons]
    omega
  · simp
  · have := (cs.dropWhile_suffix isWordChar).length_le
    simp only [List.length_cons]
    omega

/-! ## Values -/

/-- An array or object whose end has not been read, with what it holds so far, the latest first; an
object also has the key of the value that is read next. -/
inductive Open where
  | array (elements : List Value)
  | object (members : List (String × Value)) (key : String)

mutual

/-- The value of tokens at whose start a value has to stand. -/
def readItem (stack : List Open) : List Token → Option Value
  | .mark .openArray :: .mark .closeArray :: ts => readAfter (.array []) stack ts
  | .mark .openArray :: ts => readItem (.array [] :: stack) ts
  | .mark .openObject :: .mark .closeObject :: ts => readAfter (.object []) stack ts
  | .mark .openObject :: .text key :: .mark .colon :: ts => readItem (.object [] key :: stack) ts
  | .text value :: ts => readAfter (.text value) stack ts
  | .word value :: ts => readAfter value stack ts
  | _ => none

/-- The value of tokens that follow a value inside what is open. -/
def readAfter (v : Value) : List Open → List Token → Option Value
  | [], [] => some v
  | .array elements :: stack, .mark .comma :: ts => readItem (.array (v :: elements) :: stack) ts
  | .array elements :: stack, .mark .closeArray :: ts =>
    readAfter (.array (v :: elements).reverse) stack ts
  | .object members last :: stack, .mark .comma :: .text key :: .mark .colon :: ts =>
    readItem (.object ((last, v) :: members) key :: stack) ts
  | .object members last :: stack, .mark .closeObject :: ts =>
    readAfter (.object ((last, v) :: members).reverse) stack ts
  | _, _ => none

end

/-- The value that a text stands for, if it is JSON. -/
def read (s : String) : Option Value :=
  (scan s.toList).bind (readItem [])

example : read "[-1.5e1, \"\\ud83d\\ude00\\u0041\"]" =
    some (.array [.number (-15), .text "😀A"]) := by
  cbv

example : read "[1,]" = none := by cbv

end UiCatalog.Json
