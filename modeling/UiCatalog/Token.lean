import UiCatalog.Text.LineStarts
/-!
# Tokens

The words of a definition file. A token knows its text and the byte offset at which it starts.
-/

namespace UiCatalog

inductive TokenKind where
  | identifier
  | string
  | openParen
  | closeParen
  | openBrace
  | closeBrace
  | semicolon
  | comma
  /-- Text that is no other token. -/
  | invalid
deriving DecidableEq

def TokenKind.describe : TokenKind → String
  | .identifier => "identifier"
  | .string => "string literal"
  | .openParen => "'('"
  | .closeParen => "')'"
  | .openBrace => "'\x7b'"
  | .closeBrace => "'\x7d'"
  | .semicolon => "';'"
  | .comma => "','"
  | .invalid => "invalid input"

structure Token where
  kind : TokenKind
  text : String
  start : Nat
deriving DecidableEq

namespace Token

def stop (t : Token) : Nat :=
  t.start + t.text.utf8ByteSize

def extent (t : Token) : Extent :=
  ⟨t.start, t.stop⟩

end Token

end UiCatalog
