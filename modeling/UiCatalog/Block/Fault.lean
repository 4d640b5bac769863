import UiCatalog.Token
/-!
# Faults in a definition file

A fault says what was wanted where something else stood, or which call is no statement. Faults of
the second sort concern the meaning of a well-formed call and are statement faults.
-/

namespace UiCatalog

inductive Wanted where
  | token (kind : TokenKind)
  | definitionKind
  | definitionName
  | statement
  | argument
deriving DecidableEq

def Wanted.text : Wanted → String
  | .token kind => kind.describe
  | .definitionKind => "definition kind"
  | .definitionName => "definition name"
  | .statement => "statement"
  | .argument => "string literal or reference"

inductive ArgumentRule where
  | oneString
  | keyAndValue
  | childReference
  | attributeName
  | definitionName
deriving DecidableEq

def ArgumentRule.text : ArgumentRule → String
  | .oneString => "one string argument"
  | .keyAndValue => "a key and a value"
  | .childReference => "CommandRef(..) or MenuRef(..)"
  | .attributeName => "one attribute name"
  | .definitionName => "a non-empty name"

inductive Fault where
  | unexpected (wanted : Wanted) (found : Token)
  | unexpectedEnd (wanted : Wanted)
  | unknownKind (keyword : Token)
  | unknownStatement (name : String) (call : Extent)
  | wrongArguments (name : String) (rule : ArgumentRule) (call : Extent)
deriving DecidableEq

namespace Fault

/-- A token as messages show it: its text where that is not fixed by its kind. -/
def shown (t : Token) : String :=
  match t.kind with
  | .identifier | .string | .invalid => s!"'{t.text}'"
  | kind => kind.describe

def message : Fault → String
  | .unexpected wanted found => s!"expected {wanted.text}, found {shown found}"
  | .unexpectedEnd wanted => s!"expected {wanted.text}, found end of file"
  | .unknownKind keyword => s!"unknown definition kind '{keyword.text}'"
  | .unknownStatement name _ => s!"unknown statement '{name}'"
  | .wrongArguments name rule _ => s!"'{name}' expects {rule.text}"

def isStatementFault : Fault → Bool
  | .unknownStatement _ _ | .wrongArguments _ _ _ => true
  | .unexpected _ _ | .unexpectedEnd _ | .unknownKind _ => false

/-- The range that the fault concerns, in a text of `size` bytes. -/
def extent (size : Nat) : Fault → Extent
  | .unexpected _ found => found.extent
  | .unexpectedEnd _ => ⟨size, size⟩
  | .unknownKind keyword => keyword.extent
  | .unknownStatement _ call => call
  | .wrongArguments _ _ call => call

end Fault

end UiCatalog
