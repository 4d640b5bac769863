import UiCatalog.Proofs.Block.Recovery
/-!
# Readers stay within a run of tokens

A run is balanced tokens in which no block starts, up to a last token that no call can take. Every
reader stops inside the run, at the latest behind its last token if that is a semicolon, and what
follows the run has no part in what it reads. So the items of a run are read as if nothing followed.
-/

namespace UiCatalog

namespace Grammar

def IsPlain (t : Token) : Prop :=
  t.kind ≠ .semicolon ∧ t.kind ≠ .openBrace ∧ t.kind ≠ .closeBrace

/-- Balanced tokens in which no block starts, and then a last token. -/
inductive RunsTo (z : Token) : List Token → Prop where
  | last : RunsTo z [z]
  | token {t : Token} {ts : List Token} (ho : t.kind ≠ .openBrace) (hc : t.kind ≠ .closeBrace)
    (hstart : Token.startsBlock (t :: ts) = false) (hts : RunsTo z ts) : RunsTo z (t :: ts)
  | group {b d : Token} {us ts : List Token} (hb : b.kind = .openBrace) (hus : Balanced us)
    (hstart : StartsNoBlock us) (hd : d.kind = .closeBrace) (hts : RunsTo z ts) :
    RunsTo z (b :: (us ++ d :: ts))

/-- What can be left of a run: its end, or nothing if it ends with a semicolon. -/
def LeftOf (z : Token) (ts : List Token) : Prop :=
  RunsTo z ts ∨ ts = [] ∧ z.kind = .semicolon

variable {z : Token}

theorem RunsTo.ne_nil {ts : List Token} (h : RunsTo z ts) : ts ≠ [] := by
  cases h <;> simp

private theorem RunsTo.tail {t : Token} {ts : List Token} (h : RunsTo z (t :: ts)) (hz : ¬IsPlain z)
    (ht : IsPlain t) : RunsTo z ts := by
  cases h with
  | last => exact absurd ht hz
  | token _ _ _ hts => exact hts
  | group hb => exact absurd hb ht.2.1

private theorem RunsTo.leftOf_tail {t : Token} {ts : List Token} (h : RunsTo z (t :: ts))
    (ht : t.kind = .semicolon) : LeftOf z ts := by
  cases h with
  | last => exact Or.inr ⟨rfl, ht⟩
  | token _ _ _ hts => exact Or.inl hts
  | group hb =>
    rw [ht] at hb
    cases hb

private theorem RunsTo.startsBlock_append {ts : List Token} (h : RunsTo z ts) (hz : ¬IsPlain z)
    (us : List Token) : Token.startsBlock (ts ++ us) = false := by
  have hnone {k : Token} (hk : k.kind ≠ .identifier) (vs : List Token) :
      Token.startsBlock (k :: vs) = false := by
    cases vs <;> simp [Token.startsBlock, hk]
  cases h with
  | last => exact hnone (fun hk => hz (by simp [IsPlain, hk])) us
  | @token t ts _ _ hstart hts =>
    cases ts with
    | nil => exact absurd rfl hts.ne_nil
    | cons o ts => exact hstart
  | group hb => exact hnone (by simp [hb]) _

theorem StartsNoBlock.of_append {ts us : List Token} (h : StartsNoBlock (ts ++ us)) :
    StartsNoBlock ts :=
  fun vs k o ws heq => h vs k o (ws ++ us) (by simp [heq])

theorem Balanced.runsTo {us : List Token} (h : Balanced us) (hstart : StartsNoBlock us)
    (hz : ¬IsPlain z) : RunsTo z (us ++ [z]) := by
  induction h with
  | nil => exact .last
  | @token t ts ho hc _ ih =>
    have hparen : z.kind ≠ .openParen := fun hk => hz (by simp [IsPlain, hk])
    exact .token ho hc (Token.startsBlock_append hstart hparen [])
      (ih (hstart.suffix (List.suffix_cons t ts)))
  | @group b d us ts hb hus hd _ _ ih =>
    have hinner : StartsNoBlock us := (hstart.suffix (List.suffix_cons b _)).of_append
    have hlater : StartsNoBlock ts := hstart.suffix ⟨b :: (us ++ [d]), by simp⟩
    simpa using RunsTo.group hb hus hinner hd (ih hlater)

end Grammar

open Grammar

namespace Read

/-- Whether a reader stops before the last token of each run. -/
def StaysBefore {α : Type} (z : Token) (read : List Token → Read α) : Prop :=
  ∀ ts, RunsTo z ts → RunsTo z (read ts).rest ∧
    ∀ us, read (ts ++ us) = ⟨(read ts).result, (read ts).rest ++ us⟩

private theorem StaysBefore.andThen {α β : Type} {z : Token} {read : List Token → Read α}
    {next : α → List Token → Read β} (h : StaysBefore z read)
    (hnext : ∀ a, StaysBefore z (next a)) : StaysBefore z fun ts => (read ts).andThen next := by
  intro ts hts
  obtain ⟨hrest, happend⟩ := h ts hts
  cases hread : read ts with
  | mk result rest =>
    simp only [hread] at hrest happend ⊢
    simp only [happend]
    cases result with
    | error fault => exact ⟨hrest, fun us => rfl⟩
    | ok a => exact hnext a rest hrest

end Read

namespace Call

variable {z : Token}

private theorem expect_staysBefore (hz : ¬IsPlain z) {kind : TokenKind} (wanted : Wanted)
    (hkind : kind ≠ .semicolon ∧ kind ≠ .openBrace ∧ kind ≠ .closeBrace) :
    Read.StaysBefore z (expect kind wanted) := by
  intro ts hts
  cases ts with
  | nil => exact absurd rfl hts.ne_nil
  | cons t ts =>
    by_cases ht : t.kind = kind
    · have hplain : IsPlain t := by rwa [IsPlain, ht]
      simp only [expect, List.cons_append, if_pos ht]
      exact ⟨hts.tail hz hplain, fun us => trivial⟩
    · simp only [expect, List.cons_append, if_neg ht]
      exact ⟨hts, fun us => trivial⟩

private theorem readReference_staysBefore (hz : ¬IsPlain z) (keyword : String) :
    Read.StaysBefore z (readReference keyword) := by
  refine (expect_staysBefore hz _ (by decide)).andThen fun _ => ?_
  refine (expect_staysBefore hz _ (by decide)).andThen fun name => ?_
  refine (expect_staysBefore hz _ (by decide)).andThen fun _ => ?_
  exact fun ts hts => ⟨hts, fun us => rfl⟩

private theorem readArgument_staysBefore (hz : ¬IsPlain z) : Read.StaysBefore z readArgument := by
  intro ts hts
  cases ts with
  | nil => exact absurd rfl hts.ne_nil
  | cons t ts =>
    rw [readArgument]
    simp only [List.cons_append, readArgument]
    split
    · rename_i hkind
      exact ⟨hts.tail hz (by simp [IsPlain, hkind]), fun us => rfl⟩
    · rename_i hkind
      exact readReference_staysBefore hz t.text ts (hts.tail hz (by simp [IsPlain, hkind]))
    · exact ⟨hts, fun us => rfl⟩

private theorem readArguments_staysBefore (hz : ¬IsPlain z) : Read.StaysBefore z readArguments := by
  intro ts hts
  obtain ⟨hrest, happend⟩ := readArgument_staysBefore hz ts hts
  fun_induction readArguments ts with
  | case1 ts fault rest hread =>
    rw [hread] at hrest happend
    refine ⟨hrest, fun us => ?_⟩
    rw [readArguments_eq, happend]
    rfl
  | case2 ts argument hread =>
    rw [hread] at hrest
    exact absurd rfl hrest.ne_nil
  | case3 ts argument t rest hread ht ih =>
    rw [hread] at hrest happend
    have hlater := hrest.tail hz (by simp [IsPlain, ht])
    obtain ⟨hrest', happend'⟩ := readArgument_staysBefore hz rest hlater
    obtain ⟨hstays, hsame⟩ := ih hlater hrest' happend'
    refine ⟨hstays, fun us => ?_⟩
    rw [readArguments_eq, happend]
    exact (if_pos ht).trans (congrArg (Read.map (argument :: ·)) (hsame us))
  | case4 ts argument t rest hread ht =>
    rw [hread] at hrest happend
    refine ⟨hrest, fun us => ?_⟩
    rw [readArguments_eq, happend]
    exact if_neg ht

private theorem readArgumentList_staysBefore (hz : ¬IsPlain z) :
    Read.StaysBefore z readArgumentList := by
  intro ts hts
  cases ts with
  | nil => exact absurd rfl hts.ne_nil
  | cons t ts =>
    simp only [List.cons_append, readArgumentList]
    split
    · exact ⟨hts, fun us => rfl⟩
    · exact readArguments_staysBefore hz (t :: ts) hts

/-- A call that begins in a run is read, or found broken, before the last token of the run. -/
theorem read_staysBefore (hz : ¬IsPlain z) : Read.StaysBefore z read := by
  refine (expect_staysBefore hz _ (by decide)).andThen fun name => ?_
  refine (expect_staysBefore hz _ (by decide)).andThen fun _ => ?_
  refine (readArgumentList_staysBefore hz).andThen fun arguments => ?_
  refine (expect_staysBefore hz _ (by decide)).andThen fun close => ?_
  exact fun ts hts => ⟨hts, fun us => rfl⟩

end Call

namespace Token

private theorem skipStatement_balanced {us : List Token} (h : Balanced us) (depth : Nat)
    (rest : List Token) :
    skipStatement (depth + 1) (us ++ rest) = skipStatement (depth + 1) rest := by
  induction h generalizing depth rest with
  | nil => rfl
  | @token t ts ho hc _ ih =>
    rw [List.cons_append, skipStatement]
    split
    · rw [if_neg (by simp), ih]
    · rename_i hkind
      exact absurd hkind ho
    · rename_i hkind
      exact absurd hkind hc
    · rw [if_neg (by simp), ih]
  | @group b d us ts hb _ hd _ ihus ihts =>
    have happend : b :: (us ++ d :: ts) ++ rest = b :: (us ++ d :: (ts ++ rest)) := by simp
    rw [happend, skipStatement]
    simp only [hb]
    rw [ihus, skipStatement]
    simp only [hd]
    rw [if_neg (by omega), Nat.add_sub_cancel, ihts]

theorem skipStatement_group {b d : Token} {us : List Token} (hb : b.kind = .openBrace)
    (hus : Balanced us) (hd : d.kind = .closeBrace) (rest : List Token) :
    skipStatement 0 (b :: (us ++ d :: rest)) = skipStatement 0 rest := by
  rw [skipStatement]
  simp only [hb]
  rw [skipStatement_balanced hus, skipStatement]
  simp only [hd]
  rw [if_neg (by omega)]

end Token

namespace Block

variable {z : Token}

/-- Whether a reader of items takes no more than what is in a run, and takes the same whatever
follows the run. -/
def StaysIn {α : Type} (z : Token) (item : List Token → Outcome α) : Prop :=
  ∀ ts, RunsTo z ts → LeftOf z (item ts).rest ∧
    ∀ us, item (ts ++ us) = { item ts with rest := (item ts).rest ++ us }

variable (hz : z.kind = .semicolon ∨ z.kind = .closeBrace)

include hz

private theorem not_isPlain : ¬IsPlain z :=
  fun h => hz.elim h.1 h.2.2

private theorem skipStatement_run {ts : List Token} (hts : RunsTo z ts) :
    LeftOf z (Token.skipStatement 0 ts) ∧
      ∀ us, Token.skipStatement 0 (ts ++ us) = Token.skipStatement 0 ts ++ us := by
  induction hts with
  | last =>
    rcases hz with hz | hz <;> simp [Token.skipStatement, hz, LeftOf, RunsTo.last]
  | @token t ts ho hc hstart hts ih =>
    have hnone (us : List Token) : Token.startsBlock (t :: (ts ++ us)) = false :=
      (RunsTo.token ho hc hstart hts).startsBlock_append (not_isPlain hz) us
    by_cases hsemicolon : t.kind = .semicolon
    · simp [Token.skipStatement, hsemicolon, LeftOf, hts]
    · have hstep (us : List Token) :
          Token.skipStatement 0 (t :: (ts ++ us)) = Token.skipStatement 0 (ts ++ us) := by
        rw [Token.skipStatement]
        split <;> simp_all
      have hfirst : Token.skipStatement 0 (t :: ts) = Token.skipStatement 0 ts := by
        simpa using hstep []
      rw [hfirst]
      exact ⟨ih.1, fun us => (hstep us).trans (ih.2 us)⟩
  | @group b d us ts hb hus _ hd _ ih =>
    rw [Token.skipStatement_group hb hus hd]
    refine ⟨ih.1, fun vs => ?_⟩
    have happend : b :: (us ++ d :: ts) ++ vs = b :: (us ++ d :: (ts ++ vs)) := by simp
    rw [happend, Token.skipStatement_group hb hus hd, ih.2]

omit hz in
private theorem dropSemicolon_run {ts : List Token} (hts : RunsTo z ts) :
    LeftOf z (Token.dropSemicolon ts) ∧
      ∀ us, Token.dropSemicolon (ts ++ us) = Token.dropSemicolon ts ++ us := by
  cases ts with
  | nil => exact absurd rfl hts.ne_nil
  | cons t ts =>
    by_cases ht : t.kind = .semicolon
    · simp only [Token.dropSemicolon, List.cons_append, if_pos ht]
      exact ⟨hts.leftOf_tail ht, fun us => trivial⟩
    · simp only [Token.dropSemicolon, List.cons_append, if_neg ht]
      exact ⟨Or.inl hts, fun us => trivial⟩

private theorem endStatement_staysIn : StaysIn z endStatement := by
  intro ts hts
  cases hts with
  | last => rcases hz with hz | hz <;> simp [endStatement, hz, LeftOf, RunsTo.last]
  | @token t ts ho hc hstart hts =>
    simp only [List.cons_append, endStatement]
    split
    · exact ⟨Or.inl hts, fun us => rfl⟩
    · rename_i hkind
      exact absurd hkind ho
    · exact ⟨Or.inl (.token ho hc hstart hts), fun us => rfl⟩
  | @group b d us ts hb hus _ hd hts =>
    have hskip := Token.skipGroup_group hb hus hd
    obtain ⟨hleft, happend⟩ := dropSemicolon_run hts
    simp only [endStatement, hb, List.cons_append, List.append_assoc, hskip, happend]
    exact ⟨hleft, fun us => trivial⟩

private theorem finish_staysIn {α : Type} (statement : Except Fault α) :
    StaysIn z (finish statement) := by
  intro ts hts
  obtain ⟨hleft, happend⟩ := endStatement_staysIn hz ts hts
  unfold finish
  simp only [happend]
  cases statement <;> exact ⟨hleft, fun us => rfl⟩

private theorem readItem_staysIn {α : Type} {complete : Call → List Token → Outcome (Option α)}
    (hcomplete : ∀ call, StaysIn z (complete call)) : StaysIn z (readItem complete) := by
  intro ts hts
  obtain ⟨hrest, happend⟩ := Call.read_staysBefore (not_isPlain hz) ts hts
  unfold readItem
  cases hread : Call.read ts with
  | mk result rest =>
    simp only [hread] at hrest happend ⊢
    simp only [happend]
    cases result with
    | ok call => exact hcomplete call rest hrest
    | error fault =>
      obtain ⟨hleft, hskip⟩ := skipStatement_run hz hrest
      exact ⟨hleft, fun us => congrArg (Outcome.mk none [fault]) (hskip us)⟩

omit hz in
theorem goesOn_run (hz : ¬IsPlain z) {ts : List Token} (hts : RunsTo z ts)
    (hne : ts = [z] → z.kind ≠ .closeBrace) (us : List Token) : goesOn (ts ++ us) := by
  have hstart := hts.startsBlock_append hz us
  cases hts with
  | last => simp_all [goesOn]
  | token _ hc => simp_all [goesOn]
  | group hb => simp_all [goesOn]

section

omit hz

variable {α : Type} {item : List Token → Outcome (Option α)} {h : Advances item}

/-- A body that runs to its closing brace ends there, and what follows has no part in it. -/
private theorem readBody_closed (hd : z.kind = .closeBrace) (hitem : StaysIn z item)
    {ts : List Token} (hts : RunsTo z ts) (us : List Token) :
    readBody item h (ts ++ us) = { readBody item h ts with rest := us } := by
  fun_induction readBody item h ts with
  | case1 ts hon first later ih =>
    obtain ⟨hleft, happend⟩ := hitem ts hts
    have hrun : RunsTo z first.rest := hleft.resolve_right fun hnil => by simp [hd] at hnil
    have hne : ts ≠ [z] := by
      rintro rfl
      simp [goesOn, hd] at hon
    rw [readBody, dif_pos (goesOn_run (not_isPlain (Or.inr hd)) hts (fun heq => absurd heq hne) us)]
    simp only [happend]
    rw [ih hrun]
  | case2 => exact absurd rfl hts.ne_nil
  | case3 t ts _ ht =>
    cases hts with
    | last =>
      rw [List.cons_append, List.nil_append, readBody, dif_neg (by simp [goesOn, hd])]
      simp only [if_pos hd]
    | token _ hc => exact absurd ht hc
    | group hb => simp [ht] at hb
  | case4 t ts hon ht =>
    have hne : t :: ts ≠ [z] := fun heq => ht ((List.cons.inj heq).1 ▸ hd)
    have hgoes := goesOn_run (not_isPlain (Or.inr hd)) hts (fun heq => absurd heq hne) []
    exact absurd (by simpa using hgoes) hon

/-- The items of a run that ends with a semicolon are read as if nothing followed them. -/
theorem readBody_run (he : z.kind = .semicolon) (hitem : StaysIn z item) {ts : List Token}
    (hts : RunsTo z ts) (us : List Token) :
    (readBody item h (ts ++ us)).value =
        (readBody item h ts).value ++ (readBody item h us).value ∧
      (readBody item h (ts ++ us)).rest = (readBody item h us).rest := by
  have hgoesOn {ts : List Token} (hts : RunsTo z ts) (us : List Token) : goesOn (ts ++ us) :=
    goesOn_run (not_isPlain (Or.inl he)) hts (fun _ => by simp [he]) us
  fun_induction readBody item h ts with
  | case1 ts hon first later ih =>
    obtain ⟨hleft, happend⟩ := hitem ts hts
    rw [readBody, dif_pos (hgoesOn hts us)]
    simp only [happend]
    rcases hleft with hrun | ⟨hnil, _⟩
    · obtain ⟨hvalue, hrest⟩ := ih hrun
      exact ⟨by rw [hvalue, List.append_assoc], hrest⟩
    · have hlater : later.value = [] := by
        simp only [later, first, hnil]
        rw [readBody, dif_neg (by simp [goesOn])]
      simp [first, hnil, hlater]
  | case2 => exact absurd rfl hts.ne_nil
  | case3 _ _ hon => exact absurd (by simpa using hgoesOn hts []) hon
  | case4 _ _ hon => exact absurd (by simpa using hgoesOn hts []) hon

end

private theorem readField_staysIn : StaysIn z readField :=
  readItem_staysIn hz fun call => finish_staysIn hz call.toFieldStatement

private theorem readAttribute_staysIn (name : String) : StaysIn z (readAttribute name) := by
  intro ts hts
  cases hts with
  | last =>
    have hopen : z.kind ≠ .openBrace := by rcases hz with hz | hz <;> simp [hz]
    simp only [readAttribute, List.cons_append, if_neg hopen]
    exact finish_staysIn hz _ [z] .last
  | @token t ts ho hc hstart hts =>
    simp only [readAttribute, List.cons_append, if_neg ho]
    exact finish_staysIn hz _ (t :: ts) (.token ho hc hstart hts)
  | @group b d us ts hb hus hstart hd hts =>
    have hrun : RunsTo d (us ++ [d]) := hus.runsTo hstart (not_isPlain (Or.inr hd))
    have hbody := readBody_closed (h := readField_advances) hd (readField_staysIn (Or.inr hd)) hrun
    obtain ⟨body, faults, hread⟩ : ∃ body faults, ∀ vs,
        readBody readField readField_advances (us ++ d :: vs) = ⟨body, faults, vs⟩ :=
      ⟨_, _, fun vs => by simpa using hbody vs⟩
    obtain ⟨hleft, happend⟩ := dropSemicolon_run hts
    simp only [readAttribute, if_pos hb, List.cons_append, List.append_assoc, hread, happend]
    exact ⟨hleft, fun us => trivial⟩

private theorem completeStatement_staysIn (call : Call) : StaysIn z (completeStatement call) := by
  intro ts hts
  unfold completeStatement
  split
  · split
    · exact readAttribute_staysIn hz _ ts hts
    · obtain ⟨hleft, happend⟩ := endStatement_staysIn hz ts hts
      simp only [happend]
      exact ⟨hleft, fun us => trivial⟩
  · exact finish_staysIn hz _ ts hts

theorem readStatement_staysIn : StaysIn z readStatement :=
  readItem_staysIn hz (completeStatement_staysIn hz)

end Block

end UiCatalog
