import Mathlib.Data.Nat.PSub
import Mathlib.Logic.Relation
import UiCatalog.Block.Reading
/-!
# Reading makes progress

Tokens are read from the front to the end. No reader goes back, and each round of a loop, over a
file, over the statements of a block or over the body of an attribute, takes at least one token.
Where braces are counted, the count is never lowered at zero.
-/

namespace UiCatalog

open Relation

namespace Token

/-- A scan that counts open braces and ends where `stop` says. The count cannot be lowered at zero:
the scan fails instead. -/
def countBraces? (stop : Nat → Token → List Token → Option (List Token)) (depth : Nat) :
    List Token → Option (List Token)
  | [] => some []
  | t :: ts =>
    match stop depth t ts with
    | some rest => some rest
    | none =>
      match t.kind with
      | .openBrace => countBraces? stop (depth + 1) ts
      | .closeBrace => depth.ppred.bind fun outer => countBraces? stop outer ts
      | _ => countBraces? stop depth ts

/-- After a broken header, the scan ends behind a closed group or where a block starts. -/
def groupStop (depth : Nat) (t : Token) (ts : List Token) : Option (List Token) :=
  if t.kind = .closeBrace ∧ depth ≤ 1 then some ts
  else if depth = 0 ∧ startsBlock (t :: ts) then some (t :: ts)
  else none

/-- After a broken statement, the scan ends behind a semicolon, at the end of the body or where a
block starts. -/
def statementStop (depth : Nat) (t : Token) (ts : List Token) : Option (List Token) :=
  if depth ≠ 0 then none
  else if t.kind = .semicolon then some ts
  else if t.kind = .closeBrace ∨ startsBlock (t :: ts) then some (t :: ts)
  else none

/-- In place of a semicolon, the scan ends where the count would be zero again. -/
def braceStop (depth : Nat) (t : Token) (ts : List Token) : Option (List Token) :=
  if t.kind = .closeBrace ∧ depth = 1 then some ts else none

private theorem startsBlock_eq_false {t : Token} (h : t.kind ≠ .identifier) (ts : List Token) :
    startsBlock (t :: ts) = false := by
  cases ts <;> simp [startsBlock, h]

private theorem countBraces?_groupStop (depth : Nat) (ts : List Token) :
    countBraces? groupStop depth ts = some (skipGroup depth ts) := by
  induction ts generalizing depth with
  | nil => rfl
  | cons t ts ih =>
    rw [countBraces?, skipGroup, groupStop]
    by_cases hopen : t.kind = .openBrace
    · simp [hopen, startsBlock_eq_false, ih]
    · by_cases hclose : t.kind = .closeBrace
      · cases depth with
        | zero => simp [hclose]
        | succ outer => by_cases houter : outer = 0 <;> simp [hclose, houter, ih]
      · by_cases hstart : depth = 0 ∧ startsBlock (t :: ts) = true <;>
          simp [hclose, hstart, ih]

private theorem countBraces?_statementStop (depth : Nat) (ts : List Token) :
    countBraces? statementStop depth ts = some (skipStatement depth ts) := by
  induction ts generalizing depth with
  | nil => rfl
  | cons t ts ih =>
    rw [countBraces?, skipStatement, statementStop]
    by_cases hopen : t.kind = .openBrace
    · simp [hopen, startsBlock_eq_false, ih]
    · by_cases hclose : t.kind = .closeBrace
      · cases depth <;> simp [hclose, ih]
      · by_cases hend : t.kind = .semicolon
        · by_cases hdepth : depth = 0 <;> simp [hend, hdepth, ih]
        · by_cases hdepth : depth = 0
          · by_cases hstart : startsBlock (t :: ts) = true <;>
              simp [hclose, hend, hdepth, hstart, ih]
          · simp [hdepth, ih]

private theorem countBraces?_braceStop {t : Token} (ht : t.kind = .openBrace) (ts : List Token) :
    countBraces? braceStop 0 (t :: ts) = some (skipGroup 0 (t :: ts)) := by
  have hinside (depth : Nat) :
      countBraces? braceStop (depth + 1) ts = some (skipGroup (depth + 1) ts) := by
    induction ts generalizing depth with
    | nil => rfl
    | cons t ts ih =>
      rw [countBraces?, skipGroup, braceStop]
      by_cases hopen : t.kind = .openBrace
      · simp [hopen, ih]
      · by_cases hclose : t.kind = .closeBrace
        · cases depth <;> simp [hclose, ih]
        · simp [hclose, ih]
  rw [countBraces?, skipGroup, braceStop]
  simp [ht, hinside]

end Token

namespace Block

/-- What is left before and after a reader has taken its tokens. -/
inductive Takes : List Token → List Token → Prop where
  | token (kind : TokenKind) (wanted : Wanted) (ts : List Token) :
    Takes ts (Call.expect kind wanted ts).rest
  | reference (keyword : String) (ts : List Token) : Takes ts (Call.readReference keyword ts).rest
  | argument (ts : List Token) : Takes ts (Call.readArgument ts).rest
  | arguments (ts : List Token) : Takes ts (Call.readArgumentList ts).rest
  | call (ts : List Token) : Takes ts (Call.read ts).rest
  | terminator (ts : List Token) : Takes ts (endStatement ts).rest
  | field (ts : List Token) : Takes ts (readField ts).rest
  | attributeEnd (name : String) (ts : List Token) : Takes ts (readAttribute name ts).rest
  | statement (ts : List Token) : Takes ts (readStatement ts).rest
  | header (kind : Kind) (ts : List Token) : Takes ts (readHeader kind ts).rest
  | block (keyword : Token) (ts : List Token) : Takes ts (readBlock keyword ts).rest
  | skippedStatement (depth : Nat) (ts : List Token) : Takes ts (Token.skipStatement depth ts)
  | skippedGroup (depth : Nat) (ts : List Token) : Takes ts (Token.skipGroup depth ts)
  | semicolon (ts : List Token) : Takes ts (Token.dropSemicolon ts)

/-- What is left before and after a round of the loop over a file. -/
inductive FileRound : List Token → List Token → Prop where
  | block {t : Token} {ts : List Token} (ht : t.kind = .identifier) :
    FileRound (t :: ts) (readBlock t ts).rest
  | other {t : Token} {ts : List Token} (ht : t.kind ≠ .identifier) : FileRound (t :: ts) ts

/-- What is left before and after a round of a loop over a body: an item that was read, or what was
skipped in its place. -/
def BodyRound {α : Type} (item : List Token → Outcome (Option α)) (ts us : List Token) : Prop :=
  goesOn ts ∧ us = (item ts).rest

def Advanced (ts us : List Token) : Prop :=
  us <:+ ts ∧ us.length < ts.length

/-- The tokens behind the closing brace of a body, if there is one. -/
def afterBody : List Token → List Token
  | [] => []
  | t :: ts => if t.kind = .closeBrace then ts else t :: ts

private theorem Takes.suffix {ts us : List Token} (h : Takes ts us) : us <:+ ts := by
  cases h with
  | token kind wanted => exact Call.expect_suffix kind wanted ts
  | reference keyword => exact Call.readReference_suffix keyword ts
  | argument => exact Call.readArgument_suffix ts
  | arguments => exact Call.readArgumentList_suffix ts
  | call => exact Call.read_suffix ts
  | terminator => exact endStatement_suffix ts
  | field => exact readItem_suffix (fun _ _ => finish_suffix _ _) ts
  | attributeEnd name => exact readAttribute_suffix name ts
  | statement => exact readItem_suffix completeStatement_suffix ts
  | header kind => exact readHeader_suffix kind ts
  | block keyword => exact readBlock_suffix keyword ts
  | skippedStatement depth => exact Token.skipStatement_suffix depth ts
  | skippedGroup depth => exact Token.skipGroup_suffix depth ts
  | semicolon => exact Token.dropSemicolon_suffix ts

private theorem FileRound.advanced {ts us : List Token} (h : FileRound ts us) : Advanced ts us := by
  cases h with
  | @block t ts _ =>
    have hrest := readBlock_suffix t ts
    exact ⟨hrest.trans (List.suffix_cons t ts), Nat.lt_succ_of_le hrest.length_le⟩
  | other => exact ⟨List.suffix_cons _ _, Nat.lt_succ_self _⟩

private theorem readAll_rounds (ts : List Token) :
    ReflTransGen FileRound ts [] ∧ (readAll ts).rest = [] := by
  fun_induction readAll ts with
  | case1 => exact ⟨.refl, rfl⟩
  | case2 t ts ht first later ih => exact ⟨.head (.block ht) ih.1, ih.2⟩
  | case3 t ts ht later ih => exact ⟨.head (.other ht) ih.1, ih.2⟩

private theorem readBody_rounds {α : Type} {item : List Token → Outcome (Option α)}
    (h : Advances item) (ts : List Token) :
    ∃ us, ReflTransGen (BodyRound item) ts us ∧ ¬goesOn us ∧
      (readBody item h ts).rest = afterBody us := by
  fun_induction readBody item h ts with
  | case1 ts hon first later ih =>
    obtain ⟨us, hus, hstop, hrest⟩ := ih
    exact ⟨us, .head ⟨hon, rfl⟩ hus, hstop, hrest⟩
  | case2 hstop => exact ⟨[], .refl, hstop, rfl⟩
  | case3 t ts hstop ht => exact ⟨t :: ts, .refl, hstop, (if_pos ht).symm⟩
  | case4 t ts hstop ht => exact ⟨t :: ts, .refl, hstop, (if_neg ht).symm⟩

/-- How reading goes on, whatever the tokens are. -/
structure Progresses : Prop where
  /-- No reader goes back. -/
  forward : ∀ ts us, Takes ts us → us <:+ ts
  file : ∀ ts us, FileRound ts us → Advanced ts us
  statements : ∀ ts us, BodyRound readStatement ts us → Advanced ts us
  fields : ∀ ts us, BodyRound readField ts us → Advanced ts us
  /-- The loops run until nothing is left, or until the body does not go on. -/
  file_end : ∀ ts, ReflTransGen FileRound ts [] ∧ (readAll ts).rest = []
  statements_end : ∀ ts, ∃ us, ReflTransGen (BodyRound readStatement) ts us ∧ ¬goesOn us ∧
    (readBody readStatement readStatement_advances ts).rest = afterBody us
  fields_end : ∀ ts, ∃ us, ReflTransGen (BodyRound readField) ts us ∧ ¬goesOn us ∧
    (readBody readField readField_advances ts).rest = afterBody us
  /-- Where braces are counted, the count is not lowered at zero. -/
  skippedGroup : ∀ depth ts,
    Token.countBraces? Token.groupStop depth ts = some (Token.skipGroup depth ts)
  skippedStatement : ∀ depth ts,
    Token.countBraces? Token.statementStop depth ts = some (Token.skipStatement depth ts)
  terminator : ∀ t ts, t.kind = .openBrace → ∃ us,
    Token.countBraces? Token.braceStop 0 (t :: ts) = some us ∧
      (endStatement (t :: ts)).rest = Token.dropSemicolon us

/-- Whatever the tokens are, they are read from the front to the end: no reader goes back, each
round of a loop takes at least one token, and no count of open braces is lowered at zero. -/
theorem reading_progresses : Progresses where
  forward ts us h := h.suffix
  file ts us h := h.advanced
  statements ts us h := by
    obtain ⟨hon, rfl⟩ := h
    exact ⟨(Takes.statement ts).suffix, readStatement_advances ts hon⟩
  fields ts us h := by
    obtain ⟨hon, rfl⟩ := h
    exact ⟨(Takes.field ts).suffix, readField_advances ts hon⟩
  file_end := readAll_rounds
  statements_end := readBody_rounds readStatement_advances
  fields_end := readBody_rounds readField_advances
  skippedGroup := Token.countBraces?_groupStop
  skippedStatement := Token.countBraces?_statementStop
  terminator t ts ht := by
    refine ⟨_, Token.countBraces?_braceStop ht ts, ?_⟩
    simp only [endStatement, ht]

end Block

end UiCatalog
