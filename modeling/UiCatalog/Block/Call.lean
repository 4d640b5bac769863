import UiCatalog.Block
import UiCatalog.Block.Fault
import UiCatalog.Text.Blank
import UiCatalog.Text.Quoted
/-!
# Calls

Every statement is written as a call: a name and arguments in parentheses, each a string literal
or a reference such as `CommandRef("x")`. A call is read first and then compared with the known
statements, so that a call that is none of them still ends where it should.
-/

namespace UiCatalog

/-- How far one construct could be read: its value or the fault that stopped the reading, and the
tokens from there on. -/
structure Read (α : Type) where
  result : Except Fault α
  rest : List Token

namespace Read

def map {α β : Type} (f : α → β) (r : Read α) : Read β :=
  ⟨r.result.map f, r.rest⟩

/-- Reading on after a success; a fault stays where it arose. -/
def andThen {α β : Type} (r : Read α) (next : α → List Token → Read β) : Read β :=
  match r.result with
  | .ok a => next a r.rest
  | .error fault => ⟨.error fault, r.rest⟩

theorem andThen_suffix {α β : Type} {r : Read α} {next : α → List Token → Read β}
    {ts : List Token} (h : r.rest <:+ ts) (hnext : ∀ a us, (next a us).rest <:+ us) :
    (r.andThen next).rest <:+ ts := by
  unfold andThen
  split
  · exact (hnext _ _).trans h
  · exact h

end Read

inductive Argument where
  | text (value : String)
  | reference (keyword name : String)
deriving DecidableEq

/-- A call as it stands, before it is known to be a statement. -/
structure Call where
  name : String
  arguments : List Argument
  extent : Extent

namespace Call

def expect (kind : TokenKind) (wanted : Wanted) : List Token → Read Token
  | [] => ⟨.error (.unexpectedEnd wanted), []⟩
  | t :: ts =>
    if t.kind = kind then ⟨.ok t, ts⟩ else ⟨.error (.unexpected wanted t), t :: ts⟩

def readReference (keyword : String) (ts : List Token) : Read Argument :=
  (expect .openParen (.token .openParen) ts).andThen fun _ ts =>
  (expect .string (.token .string) ts).andThen fun name ts =>
  (expect .closeParen (.token .closeParen) ts).andThen fun _ ts =>
  ⟨.ok (.reference keyword (Text.unquote name.text)), ts⟩

def readArgument : List Token → Read Argument
  | [] => ⟨.error (.unexpectedEnd .argument), []⟩
  | t :: ts =>
    match t.kind with
    | .string => ⟨.ok (.text (Text.unquote t.text)), ts⟩
    | .identifier => readReference t.text ts
    | _ => ⟨.error (.unexpected .argument t), t :: ts⟩

theorem expect_suffix (kind : TokenKind) (wanted : Wanted) (ts : List Token) :
    (expect kind wanted ts).rest <:+ ts := by
  fun_cases expect kind wanted ts
  · exact List.suffix_refl _
  · exact List.suffix_cons _ _
  · exact List.suffix_refl _

theorem readReference_suffix (keyword : String) (ts : List Token) :
    (readReference keyword ts).rest <:+ ts :=
  Read.andThen_suffix (expect_suffix _ _ _) fun _ _ =>
    Read.andThen_suffix (expect_suffix _ _ _) fun _ _ =>
      Read.andThen_suffix (expect_suffix _ _ _) fun _ _ => List.suffix_refl _

theorem readArgument_suffix (ts : List Token) : (readArgument ts).rest <:+ ts := by
  fun_cases readArgument ts
  · exact List.suffix_refl _
  · exact List.suffix_cons _ _
  · exact (readReference_suffix _ _).trans (List.suffix_cons _ _)
  · exact List.suffix_refl _

/-- The arguments of a call up to the one that no comma follows. -/
def readArguments (ts : List Token) : Read (List Argument) :=
  match _h : readArgument ts with
  | ⟨.error fault, rest⟩ => ⟨.error fault, rest⟩
  | ⟨.ok argument, []⟩ => ⟨.ok [argument], []⟩
  | ⟨.ok argument, t :: rest⟩ =>
    if t.kind = .comma then (readArguments rest).map (argument :: ·)
    else ⟨.ok [argument], t :: rest⟩
termination_by ts.length
decreasing_by
  have hle := (readArgument_suffix ts).length_le
  rw [_h, List.length_cons] at hle
  omega

private theorem readArguments_suffix (ts : List Token) : (readArguments ts).rest <:+ ts := by
  fun_induction readArguments ts with
  | case1 ts _ _ h => simpa [h] using readArgument_suffix ts
  | case2 ts => exact List.nil_suffix
  | case3 ts _ t rest h _ ih =>
    have hrest : t :: rest <:+ ts := by simpa [h] using readArgument_suffix ts
    exact ih.trans ((List.suffix_cons t rest).trans hrest)
  | case4 ts _ _ _ h => simpa [h] using readArgument_suffix ts

def readArgumentList : List Token → Read (List Argument)
  | [] => readArguments []
  | t :: ts => if t.kind = .closeParen then ⟨.ok [], t :: ts⟩ else readArguments (t :: ts)

theorem readArgumentList_suffix (ts : List Token) : (readArgumentList ts).rest <:+ ts := by
  fun_cases readArgumentList ts
  · exact readArguments_suffix _
  · exact List.suffix_refl _
  · exact readArguments_suffix _

def readAfter (name : Token) (ts : List Token) : Read Call :=
  (expect .openParen (.token .openParen) ts).andThen fun _ ts =>
  (readArgumentList ts).andThen fun arguments ts =>
  (expect .closeParen (.token .closeParen) ts).andThen fun close ts =>
  ⟨.ok ⟨name.text, arguments, ⟨name.start, close.stop⟩⟩, ts⟩

def read (ts : List Token) : Read Call :=
  (expect .identifier .statement ts).andThen readAfter

private theorem readAfter_suffix (name : Token) (ts : List Token) :
    (readAfter name ts).rest <:+ ts :=
  Read.andThen_suffix (expect_suffix _ _ _) fun _ _ =>
    Read.andThen_suffix (readArgumentList_suffix _) fun _ _ =>
      Read.andThen_suffix (expect_suffix _ _ _) fun _ _ => List.suffix_refl _

theorem read_suffix (ts : List Token) : (read ts).rest <:+ ts :=
  Read.andThen_suffix (expect_suffix _ _ _) readAfter_suffix

theorem length_read_lt {ts : List Token} {call : Call} (h : (read ts).result = .ok call) :
    (read ts).rest.length < ts.length := by
  cases ts with
  | nil => simp [read, expect, Read.andThen] at h
  | cons t ts =>
    by_cases ht : t.kind = .identifier
    · have hread : read (t :: ts) = readAfter t ts := by simp [read, expect, Read.andThen, ht]
      rw [hread]
      exact Nat.lt_succ_of_le (readAfter_suffix t ts).length_le
    · simp [read, expect, Read.andThen, ht] at h

def wrongArguments (call : Call) (rule : ArgumentRule) : Fault :=
  .wrongArguments call.name rule call.extent

def oneString (call : Call) : Except Fault String :=
  match call.arguments with
  | [.text value] => .ok value
  | _ => .error (call.wrongArguments .oneString)

/-- The statement that a call makes. Attributes are not among them, because of their bodies. -/
def toStatement (call : Call) : Except Fault Statement :=
  match call.name with
  | "setUUID" => call.oneString.map .setUuid
  | "setParentType" => call.oneString.map .setParent
  | "addIcon" => call.oneString.map .addIcon
  | "addTargetTable" => call.oneString.map .addTargetTable
  | "addTargetForm" => call.oneString.map .addTargetForm
  | "addTargetMenu" => call.oneString.map .addTargetMenu
  | "addProperty" =>
    match call.arguments with
    | [.text key, .text value] => .ok (.addProperty key value)
    | _ => .error (call.wrongArguments .keyAndValue)
  | "addChild" =>
    match call.arguments with
    | [.reference keyword name] =>
      match ChildKind.ofKeyword? keyword with
      | some kind => .ok (.addChild kind name)
      | none => .error (call.wrongArguments .childReference)
    | _ => .error (call.wrongArguments .childReference)
  | _ => .error (.unknownStatement call.name call.extent)

def toFieldStatement (call : Call) : Except Fault FieldStatement :=
  match Field.ofKeyword? call.name with
  | some field => call.oneString.map (⟨field, ·⟩)
  | none => .error (.unknownStatement call.name call.extent)

/-- The name of the attribute that a call declares; it may not be blank. -/
def attributeName? (call : Call) : Option String :=
  match call.arguments with
  | [.text name] => if Text.isAllBlank name then none else some name
  | _ => none

end Call

end UiCatalog
