import UiCatalog.Block.Call
import UiCatalog.Block.Skip
/-!
# Reading blocks

Tokens are read into blocks with every fault on the way. A broken statement is left out and its
block kept; a broken header costs its block; a missing closing brace is noticed where the next block
starts. Reading ends because each item of a body takes at least one token.
-/

namespace UiCatalog

/-- What was read although there may have been faults: the value, the faults in order, and the
tokens that follow. -/
structure Outcome (α : Type) where
  value : α
  faults : List Fault
  rest : List Token

namespace Block

/-- Whether a body goes on with another item: it is not closed and no block starts. -/
def goesOn : List Token → Bool
  | [] => false
  | t :: ts => t.kind != .closeBrace && !Token.startsBlock (t :: ts)

/-- Whether a reader of items takes something whenever the body goes on. -/
def Advances {α : Type} (item : List Token → Outcome (Option α)) : Prop :=
  ∀ ts, goesOn ts → (item ts).rest.length < ts.length

def readBody {α : Type} (item : List Token → Outcome (Option α)) (h : Advances item)
    (ts : List Token) : Outcome (List α) :=
  if _hon : goesOn ts then
    let first := item ts
    let later := readBody item h first.rest
    ⟨first.value.toList ++ later.value, first.faults ++ later.faults, later.rest⟩
  else
    match ts with
    | [] => ⟨[], [.unexpectedEnd (.token .closeBrace)], []⟩
    | t :: ts =>
      if t.kind = .closeBrace then ⟨[], [], ts⟩
      else ⟨[], [.unexpected (.token .closeBrace) t], t :: ts⟩
termination_by ts.length
decreasing_by exact h ts _hon

/-- The semicolon after a statement. A brace group in its place is skipped; if something else stands
there, reading goes on as if the semicolon were there. -/
def endStatement : List Token → Outcome Unit
  | [] => ⟨(), [.unexpectedEnd (.token .semicolon)], []⟩
  | t :: ts =>
    match t.kind with
    | .semicolon => ⟨(), [], ts⟩
    | .openBrace =>
      ⟨(), [.unexpected (.token .semicolon) t], Token.dropSemicolon (Token.skipGroup 0 (t :: ts))⟩
    | _ => ⟨(), [.unexpected (.token .semicolon) t], t :: ts⟩

/-- A statement with its semicolon; faults of the semicolon come before those of the statement. -/
def finish {α : Type} (statement : Except Fault α) (ts : List Token) : Outcome (Option α) :=
  let stop := endStatement ts
  match statement with
  | .ok value => ⟨some value, stop.faults, stop.rest⟩
  | .error fault => ⟨none, stop.faults ++ [fault], stop.rest⟩

/-- An item of a body: a call and what follows it, or nothing if the call is broken. -/
def readItem {α : Type} (complete : Call → List Token → Outcome (Option α)) (ts : List Token) :
    Outcome (Option α) :=
  match Call.read ts with
  | ⟨.ok call, rest⟩ => complete call rest
  | ⟨.error fault, rest⟩ => ⟨none, [fault], Token.skipStatement 0 rest⟩

def readField : List Token → Outcome (Option FieldStatement) :=
  readItem fun call ts => finish call.toFieldStatement ts

theorem endStatement_suffix (ts : List Token) : (endStatement ts).rest <:+ ts := by
  fun_cases endStatement ts
  · exact List.suffix_refl _
  · exact List.suffix_cons _ _
  · exact (Token.dropSemicolon_suffix _).trans (Token.skipGroup_suffix _ _)
  · exact List.suffix_refl _

theorem finish_suffix {α : Type} (statement : Except Fault α) (ts : List Token) :
    (finish statement ts).rest <:+ ts := by
  unfold finish
  split <;> exact endStatement_suffix ts

theorem length_skipStatement_lt {ts : List Token} (h : goesOn ts) :
    (Token.skipStatement 0 ts).length < ts.length := by
  cases ts with
  | nil => simp [goesOn] at h
  | cons t ts =>
    simp only [goesOn, Bool.and_eq_true, bne_iff_ne, ne_eq,
      Bool.not_eq_eq_eq_not, Bool.not_true] at h
    have hle (depth : Nat) : (Token.skipStatement depth ts).length < (t :: ts).length :=
      Nat.lt_succ_of_le (Token.skipStatement_suffix depth ts).length_le
    unfold Token.skipStatement
    split
    · simp
    · exact hle _
    · exact absurd ‹_› h.1
    · simpa [h.2] using hle 0

theorem readItem_suffix {α : Type} {complete : Call → List Token → Outcome (Option α)}
    (h : ∀ call ts, (complete call ts).rest <:+ ts) (ts : List Token) :
    (readItem complete ts).rest <:+ ts := by
  have hread := Call.read_suffix ts
  unfold readItem
  split <;> rename_i heq <;> rw [heq] at hread
  · exact (h _ _).trans hread
  · exact (Token.skipStatement_suffix _ _).trans hread

private theorem readItem_advances {α : Type} {complete : Call → List Token → Outcome (Option α)}
    (h : ∀ call ts, (complete call ts).rest <:+ ts) : Advances (readItem complete) := by
  intro ts hon
  have hread := Call.read_suffix ts
  unfold readItem
  split <;> rename_i heq <;> rw [heq] at hread
  · rename_i call rest
    have hok : (Call.read ts).result = .ok call := by rw [heq]
    have hlt := Call.length_read_lt hok
    rw [heq] at hlt
    exact Nat.lt_of_le_of_lt (h call rest).length_le hlt
  · rename_i fault rest
    rcases Nat.lt_or_ge rest.length ts.length with hlt | hge
    · exact Nat.lt_of_le_of_lt (Token.skipStatement_suffix 0 rest).length_le hlt
    · have hrest : rest = ts := hread.eq_of_length_le hge
      rw [hrest]
      exact length_skipStatement_lt hon

theorem readField_advances : Advances readField :=
  readItem_advances fun _ _ => finish_suffix _ _

theorem readBody_suffix {α : Type} {item : List Token → Outcome (Option α)} {h : Advances item}
    (hitem : ∀ ts, (item ts).rest <:+ ts) (ts : List Token) :
    (readBody item h ts).rest <:+ ts := by
  fun_induction readBody item h ts with
  | case1 ts _ _ _ ih => exact ih.trans (hitem ts)
  | case2 => exact List.suffix_refl _
  | case3 => exact List.suffix_cons _ _
  | case4 => exact List.suffix_refl _

/-- What follows the name of an attribute: a body and perhaps a semicolon, or a semicolon. -/
def readAttribute (name : String) (ts : List Token) : Outcome (Option Statement) :=
  match ts with
  | [] => finish (.ok (.addAttribute name [])) []
  | t :: rest =>
    if t.kind = .openBrace then
      let body := readBody readField readField_advances rest
      ⟨some (.addAttribute name body.value), body.faults, Token.dropSemicolon body.rest⟩
    else finish (.ok (.addAttribute name [])) (t :: rest)

def completeStatement (call : Call) (ts : List Token) : Outcome (Option Statement) :=
  if call.name = "addAttribute" then
    match call.attributeName? with
    | some name => readAttribute name ts
    | none =>
      let stop := endStatement ts
      ⟨none, call.wrongArguments .attributeName :: stop.faults, stop.rest⟩
  else finish call.toStatement ts

def readStatement : List Token → Outcome (Option Statement) :=
  readItem completeStatement

theorem readAttribute_suffix (name : String) (ts : List Token) :
    (readAttribute name ts).rest <:+ ts := by
  unfold readAttribute
  split
  · exact finish_suffix _ _
  · split
    · exact (Token.dropSemicolon_suffix _).trans
        ((readBody_suffix (readItem_suffix fun _ _ => finish_suffix _ _) _).trans
          (List.suffix_cons _ _))
    · exact finish_suffix _ _

theorem completeStatement_suffix (call : Call) (ts : List Token) :
    (completeStatement call ts).rest <:+ ts := by
  unfold completeStatement
  split
  · split
    · exact readAttribute_suffix _ _
    · exact endStatement_suffix _
  · exact finish_suffix _ _

theorem readStatement_advances : Advances readStatement :=
  readItem_advances completeStatement_suffix

/-- The name of a block in parentheses and the opening brace. The name may not be blank. -/
def readHeader (kind : Kind) (ts : List Token) : Read String :=
  (Call.expect .openParen (.token .openParen) ts).andThen fun _ ts =>
  (Call.expect .string .definitionName ts).andThen fun literal ts =>
  (Call.expect .closeParen (.token .closeParen) ts).andThen fun _ ts =>
  let name := Text.unquote literal.text
  if Text.isAllBlank name then
    ⟨.error (.wrongArguments kind.keyword .definitionName literal.extent), ts⟩
  else
    (Call.expect .openBrace (.token .openBrace) ts).andThen fun _ ts =>
    ⟨.ok name, ts⟩

theorem readHeader_suffix (kind : Kind) (ts : List Token) : (readHeader kind ts).rest <:+ ts := by
  refine Read.andThen_suffix (Call.expect_suffix _ _ _) fun _ _ =>
    Read.andThen_suffix (Call.expect_suffix _ _ _) fun _ _ =>
      Read.andThen_suffix (Call.expect_suffix _ _ _) fun _ _ => ?_
  dsimp only
  split
  · exact List.suffix_refl _
  · exact Read.andThen_suffix (Call.expect_suffix _ _ _) fun _ _ => List.suffix_refl _

/-- The range of the tokens of `ts` that come before its suffix `rest`. -/
def extentBefore (ts rest : List Token) : Extent :=
  let taken := ts.take (ts.length - rest.length)
  ⟨(taken.head?.map Token.start).getD 0, (taken.getLast?.map Token.stop).getD 0⟩

/-- A block after its keyword, with the range of the whole block. -/
def readBlock (keyword : Token) (ts : List Token) : Outcome (Option (Block × Extent)) :=
  match Kind.ofKeyword? keyword.text with
  | none => ⟨none, [.unknownKind keyword], Token.skipGroup 0 ts⟩
  | some kind =>
    match readHeader kind ts with
    | ⟨.error fault, rest⟩ => ⟨none, [fault], Token.skipGroup 0 rest⟩
    | ⟨.ok name, rest⟩ =>
      let body := readBody readStatement readStatement_advances rest
      ⟨some (⟨kind, name, body.value, none⟩, extentBefore (keyword :: ts) body.rest), body.faults,
        body.rest⟩

theorem readBlock_suffix (keyword : Token) (ts : List Token) :
    (readBlock keyword ts).rest <:+ ts := by
  unfold readBlock
  split
  · exact Token.skipGroup_suffix _ _
  · rename_i kind _
    have hheader := readHeader_suffix kind ts
    split <;> rename_i heq <;> rw [heq] at hheader
    · exact (Token.skipGroup_suffix _ _).trans hheader
    · exact (readBody_suffix (readItem_suffix completeStatement_suffix) _).trans hheader

def readAll (ts : List Token) : Outcome (List (Block × Extent)) :=
  match ts with
  | [] => ⟨[], [], []⟩
  | t :: ts =>
    if t.kind = .identifier then
      let first := readBlock t ts
      let later := readAll first.rest
      ⟨first.value.toList ++ later.value, first.faults ++ later.faults, later.rest⟩
    else
      let later := readAll ts
      { later with faults := .unexpected .definitionKind t :: later.faults }
termination_by ts.length
decreasing_by
  · exact Nat.lt_succ_of_le (readBlock_suffix t ts).length_le
  · simp

end Block

end UiCatalog
