import UiCatalog.Block.Reading
import UiCatalog.Proofs.Block.Call
import UiCatalog.Proofs.Token.Scan
/-!
# Reading moved tokens

Reading looks at the kinds and texts of tokens only. Tokens that stand elsewhere are read as the
same blocks with the same faults, at places that are moved with the tokens.
-/

namespace UiCatalog

variable {n : Nat}

def Extent.move (n : Nat) (e : Extent) : Extent :=
  ⟨e.start + n, e.stop + n⟩

@[simp]
theorem Token.move_stop (t : Token) : (t.move n).stop = t.stop + n :=
  Nat.add_right_comm _ _ _

@[simp]
theorem Token.move_extent (t : Token) : (t.move n).extent = t.extent.move n := by
  rw [extent, extent, move_stop]
  rfl

def Call.move (n : Nat) (call : Call) : Call :=
  { call with extent := call.extent.move n }

namespace Fault

def move (n : Nat) : Fault → Fault
  | .unexpected wanted found => .unexpected wanted (found.move n)
  | .unexpectedEnd wanted => .unexpectedEnd wanted
  | .unknownKind keyword => .unknownKind (keyword.move n)
  | .unknownStatement name call => .unknownStatement name (call.move n)
  | .wrongArguments name rule call => .wrongArguments name rule (call.move n)

theorem message_move (f : Fault) : (f.move n).message = f.message := by
  cases f <;> rfl

theorem isStatementFault_move (f : Fault) : (f.move n).isStatementFault = f.isStatementFault := by
  cases f <;> rfl

theorem extent_move (f : Fault) (size : Nat) :
    (f.move n).extent (size + n) = (f.extent size).move n := by
  cases f with
  | unexpected _ found => exact found.move_extent
  | unexpectedEnd => rfl
  | unknownKind keyword => exact keyword.move_extent
  | unknownStatement => rfl
  | wrongArguments => rfl

end Fault

namespace Read

variable {α β : Type}

/-- The reading of moved tokens, if `f` moves what is read. -/
def move (n : Nat) (f : α → α) (r : Read α) : Read α :=
  ⟨(r.result.map f).mapError (Fault.move n), r.rest.map (Token.move n)⟩

private theorem andThen_move {f : α → α} {g : β → β} {next next' : α → List Token → Read β}
    (r : Read α) (h : ∀ a ts, next' (f a) (ts.map (Token.move n)) = (next a ts).move n g) :
    (r.move n f).andThen next' = (r.andThen next).move n g := by
  obtain ⟨result, rest⟩ := r
  cases result with
  | error fault => rfl
  | ok a => exact h a rest

private theorem map_move {f : α → β} (r : Read α) : (r.move n id).map f = (r.map f).move n id := by
  obtain ⟨result, rest⟩ := r
  cases result <;> rfl

end Read

def Outcome.move {α : Type} (n : Nat) (f : α → α) (o : Outcome α) : Outcome α :=
  ⟨f o.value, o.faults.map (Fault.move n), o.rest.map (Token.move n)⟩

namespace Call

private theorem expect_move (kind : TokenKind) (wanted : Wanted) (ts : List Token) :
    expect kind wanted (ts.map (Token.move n)) = (expect kind wanted ts).move n (Token.move n) := by
  cases ts with
  | nil => rfl
  | cons t ts =>
    rw [List.map_cons, expect, expect]
    by_cases ht : t.kind = kind
    · have hmoved : (t.move n).kind = kind := ht
      rw [if_pos ht, if_pos hmoved]
      rfl
    · have hmoved : (t.move n).kind ≠ kind := ht
      rw [if_neg ht, if_neg hmoved]
      rfl

private theorem expect_andThen_move {β : Type} {g : β → β}
    {next next' : Token → List Token → Read β} {kind : TokenKind} {wanted : Wanted}
    (ts : List Token)
    (h : ∀ t us, next' (t.move n) (us.map (Token.move n)) = (next t us).move n g) :
    (expect kind wanted (ts.map (Token.move n))).andThen next' =
      ((expect kind wanted ts).andThen next).move n g := by
  rw [expect_move]
  exact Read.andThen_move _ h

private theorem readReference_move (keyword : String) (ts : List Token) :
    readReference keyword (ts.map (Token.move n)) = (readReference keyword ts).move n id := by
  refine expect_andThen_move ts fun _ ts => ?_
  refine expect_andThen_move ts fun _ ts => ?_
  exact expect_andThen_move ts fun _ ts => rfl

private theorem readArgument_move (ts : List Token) :
    readArgument (ts.map (Token.move n)) = (readArgument ts).move n id := by
  cases ts with
  | nil => rfl
  | cons t ts =>
    simp only [List.map_cons, readArgument, Token.move_kind, Token.move_text]
    split
    · rfl
    · exact readReference_move t.text ts
    · rfl

private theorem readArguments_move (ts : List Token) :
    readArguments (ts.map (Token.move n)) = (readArguments ts).move n id := by
  fun_induction readArguments ts with
  | case1 ts fault rest hread =>
    rw [readArguments_eq, readArgument_move, hread]
    rfl
  | case2 ts argument hread =>
    rw [readArguments_eq, readArgument_move, hread]
    rfl
  | case3 ts argument t rest hread ht ih =>
    rw [readArguments_eq, readArgument_move, hread]
    refine (if_pos ht).trans ?_
    rw [ih]
    exact Read.map_move _
  | case4 ts argument t rest hread ht =>
    rw [readArguments_eq, readArgument_move, hread]
    exact if_neg ht

private theorem readArgumentList_move (ts : List Token) :
    readArgumentList (ts.map (Token.move n)) = (readArgumentList ts).move n id := by
  cases ts with
  | nil => exact readArguments_move []
  | cons t ts =>
    rw [List.map_cons, readArgumentList, readArgumentList]
    by_cases ht : t.kind = .closeParen
    · have hmoved : (t.move n).kind = .closeParen := ht
      rw [if_pos ht, if_pos hmoved]
      rfl
    · have hmoved : (t.move n).kind ≠ .closeParen := ht
      rw [if_neg ht, if_neg hmoved]
      exact readArguments_move (t :: ts)

private theorem read_move (ts : List Token) :
    read (ts.map (Token.move n)) = (read ts).move n (Call.move n) := by
  refine expect_andThen_move ts fun name ts => ?_
  refine expect_andThen_move ts fun _ ts => ?_
  rw [readArgumentList_move]
  refine Read.andThen_move _ fun arguments ts => ?_
  refine expect_andThen_move ts fun close ts => ?_
  rw [Token.move_stop]
  rfl

private theorem map_oneString_move {α : Type} (f : String → α) (call : Call) :
    (call.move n).oneString.map f = (call.oneString.map f).mapError (Fault.move n) := by
  obtain ⟨name, arguments, extent⟩ := call
  unfold oneString
  dsimp only [move]
  split <;> rfl

private theorem toStatement_move (call : Call) :
    (call.move n).toStatement = call.toStatement.mapError (Fault.move n) := by
  unfold toStatement
  dsimp only [move]
  split
  · exact map_oneString_move _ call
  · exact map_oneString_move _ call
  · exact map_oneString_move _ call
  · exact map_oneString_move _ call
  · exact map_oneString_move _ call
  · exact map_oneString_move _ call
  · split <;> rfl
  · split
    · split <;> rfl
    · rfl
  · rfl

private theorem toFieldStatement_move (call : Call) :
    (call.move n).toFieldStatement = call.toFieldStatement.mapError (Fault.move n) := by
  unfold toFieldStatement
  dsimp only [move]
  split
  · exact map_oneString_move _ call
  · rfl

end Call

namespace Token

private theorem startsBlock_move (ts : List Token) :
    startsBlock (ts.map (move n)) = startsBlock ts := by
  rcases ts with _ | ⟨k, _ | ⟨o, ts⟩⟩ <;> rfl

private theorem skipGroup_move (depth : Nat) (ts : List Token) :
    skipGroup depth (ts.map (move n)) = (skipGroup depth ts).map (move n) := by
  induction ts generalizing depth with
  | nil => rfl
  | cons t ts ih =>
    have hstart : startsBlock (t.move n :: ts.map (move n)) = startsBlock (t :: ts) :=
      startsBlock_move (t :: ts)
    rw [List.map_cons, skipGroup, skipGroup, move_kind, hstart]
    split
    · exact ih (depth + 1)
    · rw [apply_ite (List.map (move n)), ih]
    · rw [apply_ite (List.map (move n)), ih]
      rfl

private theorem skipStatement_move (depth : Nat) (ts : List Token) :
    skipStatement depth (ts.map (move n)) = (skipStatement depth ts).map (move n) := by
  induction ts generalizing depth with
  | nil => rfl
  | cons t ts ih =>
    have hstart : startsBlock (t.move n :: ts.map (move n)) = startsBlock (t :: ts) :=
      startsBlock_move (t :: ts)
    rw [List.map_cons, skipStatement, skipStatement, move_kind, hstart]
    split
    · rw [apply_ite (List.map (move n)), ih]
    · exact ih (depth + 1)
    · rw [apply_ite (List.map (move n)), ih]
      rfl
    · rw [apply_ite (List.map (move n)), ih]
      rfl

private theorem dropSemicolon_move (ts : List Token) :
    dropSemicolon (ts.map (move n)) = (dropSemicolon ts).map (move n) := by
  cases ts with
  | nil => rfl
  | cons t ts =>
    rw [dropSemicolon, apply_ite (List.map (move n))]
    rfl

end Token

namespace Block

private theorem goesOn_move (ts : List Token) : goesOn (ts.map (Token.move n)) = goesOn ts := by
  cases ts with
  | nil => rfl
  | cons t ts =>
    rw [goesOn, ← Token.startsBlock_move (n := n)]
    rfl

private theorem readBody_move {α : Type} {item : List Token → Outcome (Option α)}
    {h : Advances item} (hitem : ∀ ts, item (ts.map (Token.move n)) = (item ts).move n id)
    (ts : List Token) :
    readBody item h (ts.map (Token.move n)) = (readBody item h ts).move n id := by
  fun_induction readBody item h ts with
  | case1 ts hon first later ih =>
    have hmoved : goesOn (ts.map (Token.move n)) = true := (goesOn_move ts).trans hon
    have hlater : readBody item h ((item ts).rest.map (Token.move n)) =
        (readBody item h (item ts).rest).move n id := ih
    rw [readBody, dif_pos hmoved]
    simp only [hitem, hlater, Outcome.move, List.map_append, id_eq, first, later]
  | case2 hon =>
    rw [List.map_nil, readBody, dif_neg hon]
    rfl
  | case3 t ts hon ht =>
    have hmoved : ¬goesOn ((t :: ts).map (Token.move n)) = true := by rwa [goesOn_move]
    rw [readBody, dif_neg hmoved]
    exact if_pos ht
  | case4 t ts hon ht =>
    have hmoved : ¬goesOn ((t :: ts).map (Token.move n)) = true := by rwa [goesOn_move]
    rw [readBody, dif_neg hmoved]
    exact if_neg ht

private theorem endStatement_move (ts : List Token) :
    endStatement (ts.map (Token.move n)) = (endStatement ts).move n id := by
  cases ts with
  | nil => rfl
  | cons t ts =>
    have hskip := Token.skipGroup_move (n := n) 0 (t :: ts)
    rw [List.map_cons] at hskip ⊢
    rw [endStatement, endStatement, Token.move_kind]
    split
    · rfl
    · rw [hskip, Token.dropSemicolon_move]
      rfl
    · rfl

private theorem finish_move {α : Type} (statement : Except Fault α) (ts : List Token) :
    finish (statement.mapError (Fault.move n)) (ts.map (Token.move n)) =
      (finish statement ts).move n id := by
  cases statement with
  | ok value =>
    simp only [finish, Except.mapError, endStatement_move]
    rfl
  | error fault =>
    simp only [finish, Except.mapError, endStatement_move, Outcome.move, List.map_append]
    rfl

private theorem readItem_move {α : Type} {complete : Call → List Token → Outcome (Option α)}
    (hcomplete : ∀ call ts, complete (call.move n) (ts.map (Token.move n)) =
      (complete call ts).move n id) (ts : List Token) :
    readItem complete (ts.map (Token.move n)) = (readItem complete ts).move n id := by
  rw [readItem, readItem, Call.read_move]
  obtain ⟨result, rest⟩ := Call.read ts
  cases result with
  | ok call => exact hcomplete call rest
  | error fault =>
    simp only [Read.move, Except.map, Except.mapError, Token.skipStatement_move]
    rfl

private theorem readField_move (ts : List Token) :
    readField (ts.map (Token.move n)) = (readField ts).move n id := by
  refine readItem_move (fun call ts => ?_) ts
  rw [Call.toFieldStatement_move, finish_move]

private theorem readAttribute_move (name : String) (ts : List Token) :
    readAttribute name (ts.map (Token.move n)) = (readAttribute name ts).move n id := by
  cases ts with
  | nil => rfl
  | cons t ts =>
    rw [List.map_cons, readAttribute, readAttribute]
    by_cases ht : t.kind = .openBrace
    · have hmoved : (t.move n).kind = .openBrace := ht
      have hbody := readBody_move (h := readField_advances) (n := n) readField_move ts
      simp only [if_pos ht, if_pos hmoved, hbody]
      simp only [Outcome.move, Token.dropSemicolon_move, id_eq]
    · have hmoved : (t.move n).kind ≠ .openBrace := ht
      rw [if_neg ht, if_neg hmoved]
      exact finish_move (.ok (Statement.addAttribute name [])) (t :: ts)

private theorem completeStatement_move (call : Call) (ts : List Token) :
    completeStatement (call.move n) (ts.map (Token.move n)) =
      (completeStatement call ts).move n id := by
  have hname : (call.move n).name = call.name := rfl
  have hattribute : (call.move n).attributeName? = call.attributeName? := rfl
  rw [completeStatement, completeStatement, hname, hattribute]
  by_cases hword : call.name = "addAttribute"
  · rw [if_pos hword, if_pos hword]
    cases call.attributeName? with
    | none =>
      simp only [endStatement_move]
      rfl
    | some name => exact readAttribute_move name ts
  · rw [if_neg hword, if_neg hword, Call.toStatement_move, finish_move]

private theorem readStatement_move (ts : List Token) :
    readStatement (ts.map (Token.move n)) = (readStatement ts).move n id :=
  readItem_move completeStatement_move ts

private theorem readHeader_move (kind : Kind) (ts : List Token) :
    readHeader kind (ts.map (Token.move n)) = (readHeader kind ts).move n id := by
  refine Call.expect_andThen_move ts fun _ ts => ?_
  refine Call.expect_andThen_move ts fun literal ts => ?_
  refine Call.expect_andThen_move ts fun _ ts => ?_
  rw [Token.move_text, Token.move_extent]
  by_cases hblank : Text.isAllBlank (Text.unquote literal.text) = true
  · simp only [if_pos hblank]
    rfl
  · simp only [if_neg hblank]
    exact Call.expect_andThen_move ts fun _ ts => rfl

private theorem extentBefore_move {ts rest : List Token} (h : rest.length < ts.length) :
    extentBefore (ts.map (Token.move n)) (rest.map (Token.move n)) =
      (extentBefore ts rest).move n := by
  -- without a token before `rest` the range would be the one at zero, which does not move
  have hne : ts.take (ts.length - rest.length) ≠ [] := by
    rw [ne_eq, List.take_eq_nil_iff]
    rintro (hzero | rfl)
    · omega
    · simp at h
  simp only [extentBefore, List.length_map, ← List.map_take, List.head?_map, List.getLast?_map]
  generalize ts.take (ts.length - rest.length) = taken at hne ⊢
  rw [List.head?_eq_some_head hne, List.getLast?_eq_some_getLast hne]
  exact congrArg (Extent.mk _) (Token.move_stop _)

def moved (n : Nat) (block : Block × Extent) : Block × Extent :=
  (block.1, block.2.move n)

private theorem readBlock_move (keyword : Token) (ts : List Token) :
    readBlock (keyword.move n) (ts.map (Token.move n)) =
      (readBlock keyword ts).move n (Option.map (moved n)) := by
  rw [readBlock, readBlock, Token.move_text]
  cases Kind.ofKeyword? keyword.text with
  | none =>
    simp only [Token.skipGroup_move]
    rfl
  | some kind =>
    simp only [readHeader_move]
    have hheader := readHeader_suffix kind ts
    generalize readHeader kind ts = header at hheader ⊢
    obtain ⟨result, rest⟩ := header
    cases result with
    | error fault =>
      simp only [Read.move, Except.map, Except.mapError, Token.skipGroup_move]
      rfl
    | ok name =>
      have hsuffix := (readBody_suffix (h := readStatement_advances)
        (readItem_suffix completeStatement_suffix) rest).trans hheader
      have hlength : (readBody readStatement readStatement_advances rest).rest.length <
          (keyword :: ts).length := Nat.lt_succ_of_le hsuffix.length_le
      have hextent := extentBefore_move (n := n) hlength
      rw [List.map_cons] at hextent
      simp only [Read.move, Except.map, Except.mapError, readBody_move readStatement_move,
        Outcome.move, hextent]
      rfl

/-- Tokens that stand elsewhere are read as the same blocks with the same faults. -/
theorem readAll_move (ts : List Token) :
    readAll (ts.map (Token.move n)) = (readAll ts).move n (List.map (moved n)) := by
  fun_induction readAll ts with
  | case1 => rw [List.map_nil, readAll]; rfl
  | case2 t ts ht first later ih =>
    have hmoved : (t.move n).kind = .identifier := ht
    have hlater : readAll ((readBlock t ts).rest.map (Token.move n)) =
        (readAll (readBlock t ts).rest).move n (List.map (moved n)) := ih
    rw [List.map_cons, readAll, if_pos hmoved]
    simp only [readBlock_move, Outcome.move, hlater, List.map_append, first, later]
    cases (readBlock t ts).value <;> rfl
  | case3 t ts ht later ih =>
    have hmoved : (t.move n).kind ≠ .identifier := ht
    rw [List.map_cons, readAll, if_neg hmoved, ih]
    rfl

end Block

end UiCatalog
