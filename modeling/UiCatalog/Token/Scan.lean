import UiCatalog.Token
/-!
# Scanning

A text is cut into lexemes, each the longest that fits: blanks and comments, which are skipped, and
tokens. Text that fits nothing becomes an invalid token that runs to where nothing could go on.
Scanning ends because a lexeme is never empty.
-/

namespace UiCatalog.Token

def isSpace (c : Char) : Bool :=
  c == ' ' || c == '\t' || c == '\r' || c == '\n' || c == '\x0c'

def isWordStart (c : Char) : Bool :=
  c.isAlpha || c == '_'

def isWordPart (c : Char) : Bool :=
  c.isAlphanum || c == '_'

/-- A run of characters from the front of a text, what follows it, and whether it is complete. -/
structure Run where
  complete : Bool
  taken : List Char
  rest : List Char

def Run.cons (c : Char) (r : Run) : Run :=
  { r with taken := c :: r.taken }

/-- A string literal after its opening quote. A backslash takes the character after it, which may
not be a line feed. -/
def stringTail : List Char → Run
  | [] => ⟨false, [], []⟩
  | '"' :: cs => ⟨true, ['"'], cs⟩
  | ['\\'] => ⟨false, ['\\'], []⟩
  | '\\' :: '\n' :: cs => ⟨false, ['\\'], '\n' :: cs⟩
  | '\\' :: c :: cs => ((stringTail cs).cons c).cons '\\'
  | c :: cs => (stringTail cs).cons c

/-- A block comment after its opening, up to the first closing. -/
def commentTail : List Char → Run
  | [] => ⟨false, [], []⟩
  | '*' :: '/' :: cs => ⟨true, ['*', '/'], cs⟩
  | c :: cs => (commentTail cs).cons c

/-- The front of a text: a token of some kind, or something to skip, and what follows it. -/
structure Lexeme where
  kind : Option TokenKind
  text : List Char
  rest : List Char

def lexeme (c : Char) (cs : List Char) : Lexeme :=
  if isSpace c then ⟨none, c :: cs.takeWhile isSpace, cs.dropWhile isSpace⟩
  else if isWordStart c then
    ⟨some .identifier, c :: cs.takeWhile isWordPart, cs.dropWhile isWordPart⟩
  else
    match c, cs with
    | '"', cs =>
      let tail := stringTail cs
      ⟨some (if tail.complete then .string else .invalid), '"' :: tail.taken, tail.rest⟩
    | '/', '/' :: cs => ⟨none, '/' :: '/' :: cs.takeWhile (· ≠ '\n'), cs.dropWhile (· ≠ '\n')⟩
    | '/', '*' :: cs =>
      let tail := commentTail cs
      ⟨if tail.complete then none else some .invalid, '/' :: '*' :: tail.taken, tail.rest⟩
    | '(', cs => ⟨some .openParen, ['('], cs⟩
    | ')', cs => ⟨some .closeParen, [')'], cs⟩
    | '{', cs => ⟨some .openBrace, ['{'], cs⟩
    | '}', cs => ⟨some .closeBrace, ['}'], cs⟩
    | ';', cs => ⟨some .semicolon, [';'], cs⟩
    | ',', cs => ⟨some .comma, [','], cs⟩
    | c, cs => ⟨some .invalid, [c], cs⟩

private theorem stringTail_append (cs : List Char) :
    (stringTail cs).taken ++ (stringTail cs).rest = cs := by
  fun_induction stringTail cs <;> simp_all [Run.cons]

private theorem commentTail_append (cs : List Char) :
    (commentTail cs).taken ++ (commentTail cs).rest = cs := by
  fun_induction commentTail cs <;> simp_all [Run.cons]

/-- A lexeme and what follows it are the text. -/
theorem lexeme_append (c : Char) (cs : List Char) :
    (lexeme c cs).text ++ (lexeme c cs).rest = c :: cs := by
  unfold lexeme
  split
  · simp
  · split
    · simp
    · split <;> simp [stringTail_append, commentTail_append]

private theorem lexeme_text_ne_nil (c : Char) (cs : List Char) : (lexeme c cs).text ≠ [] := by
  unfold lexeme
  split
  · simp
  · split
    · simp
    · split <;> simp

theorem lexeme_rest_length (c : Char) (cs : List Char) :
    (lexeme c cs).rest.length < (c :: cs).length := by
  have h := congrArg List.length (lexeme_append c cs)
  have hpos := List.length_pos_iff.mpr (lexeme_text_ne_nil c cs)
  rw [List.length_append] at h
  omega

/-- The tokens of a text whose first character is at `offset`. -/
def scanFrom (offset : Nat) : List Char → List Token
  | [] => []
  | c :: cs =>
    let front := lexeme c cs
    let text := String.ofList front.text
    let later := scanFrom (offset + text.utf8ByteSize) front.rest
    match front.kind with
    | none => later
    | some kind => ⟨kind, text, offset⟩ :: later
termination_by cs => cs.length
decreasing_by exact lexeme_rest_length c cs

def scan (text : String) : List Token :=
  scanFrom 0 text.toList

end UiCatalog.Token
