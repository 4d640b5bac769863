/-!
# JSON values

A value is written with one member or element per line, two spaces further in than what holds it. An
empty array is written `[]`.
-/

namespace UiCatalog

inductive Json where
  | number (value : Nat)
  | text (value : String)
  | array (elements : List Json)
  | object (members : List (String × Json))

namespace Json

def hexDigit (n : Nat) : Char :=
  Nat.digitChar n

/-- A character inside a JSON string. Quotes, backslashes and control characters are escaped. -/
def escape (c : Char) : List Char :=
  if c = '"' then ['\\', '"']
  else if c = '\\' then ['\\', '\\']
  else if c = '\n' then ['\\', 'n']
  else if c = '\r' then ['\\', 'r']
  else if c = '\t' then ['\\', 't']
  else if c = '\x08' then ['\\', 'b']
  else if c = '\x0c' then ['\\', 'f']
  else if c.toNat < 0x20 then
    ['\\', 'u', '0', '0', hexDigit (c.toNat / 16), hexDigit (c.toNat % 16)]
  else [c]

def quote (s : String) : List Char :=
  '"' :: s.toList.flatMap escape ++ ['"']

def newline (depth : Nat) : List Char :=
  '\n' :: List.replicate (2 * depth) ' '

mutual

def write (depth : Nat) : Json → List Char
  | .number value => (toString value).toList
  | .text value => quote value
  | .array [] => ['[', ']']
  | .array (e :: es) =>
    '[' :: newline (depth + 1) ++ write (depth + 1) e ++ writeElements (depth + 1) es ++
      newline depth ++ [']']
  | .object [] => ['{', '}']
  | .object ((key, value) :: ms) =>
    '{' :: newline (depth + 1) ++ quote key ++ [':', ' '] ++ write (depth + 1) value ++
      writeMembers (depth + 1) ms ++ newline depth ++ ['}']

/-- The elements after the first one. -/
def writeElements (depth : Nat) : List Json → List Char
  | [] => []
  | e :: es => ',' :: newline depth ++ write depth e ++ writeElements depth es

def writeMembers (depth : Nat) : List (String × Json) → List Char
  | [] => []
  | (key, value) :: ms =>
    ',' :: newline depth ++ quote key ++ [':', ' '] ++ write depth value ++ writeMembers depth ms

end

def render (j : Json) : String :=
  String.ofList (j.write 0)

end Json

end UiCatalog
