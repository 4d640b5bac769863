import UiCatalog.Proofs.Block.BrokenStatement
/-!
# What a broken attribute costs

The word of an attribute, tokens without braces and semicolons, and a body: if the tokens in front
of the body are calls, the body is taken with the last of them and nothing else is lost. Otherwise
reading goes on behind the next semicolon after the body, so the next statement that ends with one
is lost, with all attributes that come before it and end with their bodies.
-/

namespace UiCatalog

namespace Grammar

private theorem Many.flatMap {α : Type} {L : List Token → α → Prop}
    {sentences : List (List Token × α)} (h : ∀ p ∈ sentences, L p.1 p.2) :
    Many L (sentences.flatMap Prod.fst) (sentences.map Prod.snd) := by
  induction sentences with
  | nil => exact .nil
  | cons p sentences ih =>
    obtain ⟨hp, hsentences⟩ := List.forall_mem_cons.mp h
    exact .cons hp (ih hsentences)

private theorem IsCall.append_inj {ts us rest rest' : List Token} {call call' : Call}
    (h : IsCall ts call) (h' : IsCall us call') (heq : ts ++ rest = us ++ rest') :
    rest = rest' := by
  have hread : Call.read (ts ++ rest) = ⟨.ok call, rest⟩ :=
    Call.read_eq_ok_iff.mpr ⟨ts, rfl, h⟩
  have hread' : Call.read (us ++ rest') = ⟨.ok call', rest'⟩ :=
    Call.read_eq_ok_iff.mpr ⟨us, rfl, h'⟩
  rw [heq, hread'] at hread
  exact (Read.mk.inj hread).2.symm

private theorem IsCall.ne_nil {ts : List Token} {call : Call} (h : IsCall ts call) : ts ≠ [] := by
  cases h <;> simp

private theorem IsCall.exists_many_append_iff {used left : List Token} {call : Call}
    (h : IsCall used call) :
    (∃ calls, Many IsCall (used ++ left) calls) ↔ ∃ calls, Many IsCall left calls := by
  constructor
  · rintro ⟨calls, hcalls⟩
    generalize hts : used ++ left = ts at hcalls
    cases hcalls with
    | nil => exact absurd (List.append_eq_nil_iff.mp hts).1 h.ne_nil
    | cons hcall hlater =>
      obtain rfl := h.append_inj hcall hts
      exact ⟨_, hlater⟩
  · rintro ⟨calls, hcalls⟩
    exact ⟨call :: calls, .cons h hcalls⟩

private theorem not_many_isCall {ws : List Token} (hne : ws ≠ [])
    (hopen : ∀ t ∈ ws, t.kind ≠ .closeParen) : ¬∃ calls, Many IsCall ws calls := by
  rintro ⟨calls, hcalls⟩
  cases hcalls with
  | nil => exact hne rfl
  | cons hcall _ =>
    cases hcall with
    | empty _ _ hc => exact hopen _ (by simp) hc
    | mk _ _ _ hc => exact hopen _ (by simp) hc

private theorem IsField.braceless {ts : List Token} {field : FieldStatement}
    (h : IsField ts field) : ∀ t ∈ ts, t.kind ≠ .openBrace ∧ t.kind ≠ .closeBrace := by
  obtain ⟨⟨hk, ho, hs, hc⟩, he⟩ := h
  simp [hk.1, ho, hs, hc, he]

private theorem balanced_of_fields {ts : List Token} {fields : List FieldStatement}
    (h : Many IsField ts fields) : Balanced ts := by
  induction h with
  | nil => exact .nil
  | cons hfield _ ih => exact ih.append_left hfield.braceless

/-- Tokens of calls without a word that a block starts with. -/
def IsPhrase (ts : List Token) : Prop :=
  ∀ t ∈ ts, IsPlain t ∧ (t.kind = .identifier → Kind.ofKeyword? t.text = none)

private theorem OneText.isPhrase {word text : String} {ts : List Token} (h : OneText word ts text)
    (hword : Kind.ofKeyword? word = none) : IsPhrase ts := by
  obtain ⟨⟨hk, rfl⟩, ho, hs, hc⟩ := h
  simp [IsPhrase, IsPlain, hk, ho, hs, hc, hword]

private theorem IsStatement.shape {ts : List Token} {s : Statement} (h : IsStatement ts s) :
    (∃ ws e, ts = ws ++ [e] ∧ IsPhrase ws ∧ e.kind = .semicolon) ∨
    ∃ ws b us d es, ts = ws ++ b :: (us ++ d :: es) ∧ IsPhrase ws ∧ b.kind = .openBrace ∧
      Balanced us ∧ d.kind = .closeBrace ∧
      (es = [] ∨ ∃ e : Token, e.kind = .semicolon ∧ es = [e]) := by
  cases h with
  | text hmake hts he =>
    exact Or.inl ⟨_, _, rfl, hts.isPhrase (Block.kindOfKeyword?_textStatements hmake), he⟩
  | @property k o s m t c e hk ho hs hm ht hc he =>
    have hword : Kind.ofKeyword? "addProperty" = none := by decide
    refine Or.inl ⟨[k, o, s, m, t, c], e, rfl, ?_, he⟩
    simp [IsPhrase, IsPlain, hk.1, hk.2, ho, hs, hm, ht, hc, hword]
  | @child kind k o c e us _ hk ho hts hc he =>
    have hword : Kind.ofKeyword? "addChild" = none := by decide
    have hkind : Kind.ofKeyword? kind.keyword = none := by cases kind <;> decide
    refine Or.inl ⟨k :: o :: us ++ [c], e, by simp, ?_, he⟩
    rw [IsPhrase, List.forall_mem_append, List.forall_mem_cons, List.forall_mem_cons]
    refine ⟨⟨?_, ?_, hts.isPhrase hkind⟩, ?_⟩ <;>
      simp [IsPlain, hk.1, hk.2, ho, hc, hword]
  | plainAttribute hts _ he => exact Or.inl ⟨_, _, rfl, hts.isPhrase (by decide), he⟩
  | bodiedAttribute hts _ hb hus hd hes =>
    exact Or.inr ⟨_, _, _, _, _, rfl, hts.isPhrase (by decide), hb, balanced_of_fields hus, hd, hes⟩

end Grammar

open Grammar

namespace Token

private theorem skipStatement_plain {ws : List Token} {z : Token} (hplain : ∀ t ∈ ws, IsPlain t)
    (hstart : StartsNoBlock ws) (hz : z.kind ≠ .openParen) (rest : List Token) :
    skipStatement 0 (ws ++ z :: rest) = skipStatement 0 (z :: rest) := by
  induction ws with
  | nil => rfl
  | cons t ws ih =>
    obtain ⟨⟨he, ho, hc⟩, hplain⟩ := List.forall_mem_cons.mp hplain
    have hnone := startsBlock_append hstart hz rest
    rw [List.cons_append, skipStatement]
    split
    · rename_i hkind
      exact absurd hkind he
    · rename_i hkind
      exact absurd hkind ho
    · rename_i hkind
      exact absurd hkind hc
    · rw [if_neg (by simp [hnone])]
      exact ih hplain (hstart.suffix (List.suffix_cons t ws))

end Token

namespace Block

def endsInSemicolon (ts : List Token) : Bool :=
  ts.getLast?.any (·.kind == .semicolon)

private theorem skipStatement_statement {ts : List Token} {s : Statement} (h : IsStatement ts s)
    (rest : List Token) : Token.skipStatement 0 (ts ++ rest) =
      if endsInSemicolon ts then rest else Token.skipStatement 0 rest := by
  have hphrase {ws : List Token} {z : Token} (hws : IsPhrase ws) (hz : z.kind ≠ .openParen)
      (us : List Token) : Token.skipStatement 0 (ws ++ z :: us) = Token.skipStatement 0 (z :: us) :=
    Token.skipStatement_plain (fun t ht => (hws t ht).1) (.of_words fun t ht => (hws t ht).2) hz us
  have hclosed {e : Token} (he : e.kind = .semicolon) (us : List Token) :
      Token.skipStatement 0 (e :: us) = us := by
    simp [Token.skipStatement, he]
  rcases h.shape with ⟨ws, e, rfl, hws, he⟩ | ⟨ws, b, us, d, es, rfl, hws, hb, hus, hd, hes⟩
  · have hends : endsInSemicolon (ws ++ [e]) = true := by simp [endsInSemicolon, he]
    rw [if_pos hends, List.append_assoc, List.cons_append, List.nil_append,
      hphrase hws (by simp [he]), hclosed he]
  · rw [List.append_assoc, List.cons_append, List.append_assoc, List.cons_append,
      hphrase hws (by simp [hb]), Token.skipStatement_group hb hus hd]
    rcases hes with rfl | ⟨e, he, rfl⟩
    · have hends : endsInSemicolon (ws ++ b :: (us ++ [d])) = false := by
        simp [endsInSemicolon, List.getLast?_append, List.getLast?_cons, hd]
      rw [hends]
      rfl
    · have hends : endsInSemicolon (ws ++ b :: (us ++ [d, e])) = true := by
        simp [endsInSemicolon, List.getLast?_append, List.getLast?_cons, he]
      rw [if_pos hends]
      exact hclosed he rest

private theorem exists_completeStatement {front left : List Token → List Token}
    {faults : List Fault} (hend : ∀ rest, endStatement (front rest) = ⟨(), faults, left rest⟩)
    (hattribute : ∀ name, ∃ value faults, ∀ rest,
      readAttribute name (front rest) = ⟨value, faults, left rest⟩) (call : Call) :
    ∃ value faults, ∀ rest, completeStatement call (front rest) = ⟨value, faults, left rest⟩ := by
  unfold completeStatement
  split
  · split
    · exact hattribute _
    · simp only [hend]
      exact ⟨_, _, fun rest => rfl⟩
  · unfold finish
    simp only [hend]
    cases call.toStatement <;> exact ⟨_, _, fun rest => rfl⟩

private theorem completeStatement_body {b c : Token} {fs : List Token}
    {fields : List FieldStatement} (hb : b.kind = .openBrace) (hfs : Many IsField fs fields)
    (hc : c.kind = .closeBrace) (call : Call) :
    ∃ value faults, ∀ rest, completeStatement call (b :: (fs ++ c :: rest)) =
      ⟨value, faults, Token.dropSemicolon rest⟩ := by
  have hend (rest : List Token) : endStatement (b :: (fs ++ c :: rest)) =
      ⟨(), [.unexpected (.token .semicolon) b], Token.dropSemicolon rest⟩ := by
    simp only [endStatement, hb, Token.skipGroup_group hb (balanced_of_fields hfs) hc]
  apply exists_completeStatement hend
  intro name
  exact ⟨_, _, fun rest => readAttribute_body hb hfs hc⟩

private theorem completeStatement_plain (call : Call) {t : Token} (ht : IsPlain t) :
    ∃ value faults, ∀ rest, completeStatement call (t :: rest) = ⟨value, faults, t :: rest⟩ := by
  obtain ⟨he, ho, _⟩ := ht
  have hend (rest : List Token) : endStatement (t :: rest) =
      ⟨(), [.unexpected (.token .semicolon) t], t :: rest⟩ := by
    rw [endStatement]
    split
    · rename_i hkind
      exact absurd hkind he
    · rename_i hkind
      exact absurd hkind ho
    · rfl
  apply exists_completeStatement hend
  intro name
  simp only [readAttribute, if_neg ho, finish, hend]
  exact ⟨_, _, fun rest => rfl⟩

private theorem runsTo_body {b : Token} {ws : List Token} (hb : b.kind = .openBrace)
    (hplain : ∀ t ∈ ws, IsPlain t) (hstart : StartsNoBlock ws) : RunsTo b (ws ++ [b]) := by
  have hbalanced : Balanced (ws ++ []) :=
    Balanced.nil.append_left fun t ht => ⟨(hplain t ht).2.1, (hplain t ht).2.2⟩
  rw [List.append_nil] at hbalanced
  exact hbalanced.runsTo hstart fun h => h.2.1 hb

/-- A call in front of a body is read, or what stands there does not begin with a call and breaks
before the body. -/
private theorem read_beforeBody {b : Token} {ws : List Token} (hb : b.kind = .openBrace)
    (hplain : ∀ t ∈ ws, IsPlain t) (hstart : StartsNoBlock ws) :
    (∃ used call left, ws = used ++ left ∧ IsCall used call) ∨
    (∀ used call left, ws = used ++ left → ¬IsCall used call) ∧
      ∃ fault left, left <:+ ws ∧ ∀ rest, Call.read (ws ++ b :: rest) =
        ⟨.error fault, left ++ b :: rest⟩ := by
  have hrun := runsTo_body hb hplain hstart
  obtain ⟨hrest, happend⟩ := Call.read_staysBefore (fun h => h.2.1 hb) _ hrun
  obtain ⟨left, hleft, hsuffix⟩ : ∃ left, (Call.read (ws ++ [b])).rest = left ++ [b] ∧
      left <:+ ws :=
    (List.suffix_concat_iff.mp (Call.read_suffix (ws ++ [b]))).resolve_left hrest.ne_nil
  cases hread : Call.read (ws ++ [b]) with
  | mk result rest =>
    obtain rfl : rest = left ++ [b] := by rw [← hleft, hread]
    cases result with
    | ok call =>
      obtain ⟨used, hused, hcall⟩ := Call.read_eq_ok_iff.mp hread
      rw [← List.append_assoc] at hused
      exact Or.inl ⟨used, call, left, (List.append_inj' hused rfl).1, hcall⟩
    | error fault =>
      refine Or.inr ⟨fun used call left' heq hcall => ?_, fault, left, hsuffix, fun rest => ?_⟩
      · have hok : Call.read (ws ++ [b]) = ⟨.ok call, left' ++ [b]⟩ :=
          Call.read_eq_ok_iff.mpr ⟨used, by rw [heq, List.append_assoc], hcall⟩
        rw [hread] at hok
        simp at hok
      · simpa [hread] using happend rest

section

variable {b c : Token} {fs : List Token} {fields : List FieldStatement} (hb : b.kind = .openBrace)
  (hfs : Many IsField fs fields) (hc : c.kind = .closeBrace)

include hb hfs hc

/-- If the tokens in front of a body are calls, reading goes on behind the body, and otherwise
behind the next semicolon. -/
private theorem exists_statementsOf_body {ws : List Token} (hne : ws ≠ [])
    (hplain : ∀ t ∈ ws, IsPlain t) (hstart : StartsNoBlock ws) : ∃ first resume,
    ((∃ calls, Many IsCall ws calls) → resume = id) ∧
    ((¬∃ calls, Many IsCall ws calls) → resume = Token.skipStatement 0) ∧
    ∀ rest, statementsOf (ws ++ b :: (fs ++ c :: rest)) =
      (first ++ (statementsOf (resume rest)).1, (statementsOf (resume rest)).2) := by
  induction hlength : ws.length using Nat.strong_induction_on generalizing ws with
  | h n ih =>
    have hon (rest : List Token) : goesOn (ws ++ b :: (fs ++ c :: rest)) := by
      simpa using goesOn_run (fun h => h.2.1 hb) (runsTo_body hb hplain hstart)
        (fun _ => by simp [hb]) (fs ++ c :: rest)
    rcases read_beforeBody hb hplain hstart with ⟨used, call, left, rfl, hcall⟩ |
      ⟨hnone, fault, left, hsuffix, hread⟩
    · have hitem (rest : List Token) : readStatement (used ++ left ++ b :: (fs ++ c :: rest)) =
          completeStatement call (left ++ b :: (fs ++ c :: rest)) := by
        rw [List.append_assoc, readStatement, readItem_of_isCall hcall]
      rw [hcall.exists_many_append_iff]
      cases left with
      | nil =>
        obtain ⟨value, faults, hbody⟩ := completeStatement_body hb hfs hc call
        refine ⟨value.toList, id, fun _ => rfl, fun hnone => absurd ⟨[], .nil⟩ hnone,
          fun rest => ?_⟩
        rw [statementsOf_of_readStatement (hon rest) ((hitem rest).trans (hbody rest))]
        simp only [statementsOf_dropSemicolon, id]
      | cons t left =>
        have hplain' : ∀ u ∈ t :: left, IsPlain u := fun u hu =>
          hplain u (List.mem_append_right used hu)
        have hlt : (t :: left).length < n := by
          have hpos := List.length_pos_iff.mpr hcall.ne_nil
          rw [← hlength, List.length_append]
          omega
        obtain ⟨value, faults, hstep⟩ :=
          completeStatement_plain call (hplain' t List.mem_cons_self)
        obtain ⟨first, resume, hcalls, hnone, hlater⟩ := ih _ hlt (List.cons_ne_nil t left)
          hplain' (hstart.suffix (List.suffix_append used _)) rfl
        refine ⟨value.toList ++ first, resume, hcalls, hnone, fun rest => ?_⟩
        have hfirst : readStatement (used ++ t :: left ++ b :: (fs ++ c :: rest)) =
            ⟨value, faults, t :: left ++ b :: (fs ++ c :: rest)⟩ := (hitem rest).trans (hstep _)
        rw [statementsOf_of_readStatement (hon rest) hfirst]
        simp only [hlater, List.append_assoc]
    · refine ⟨[], Token.skipStatement 0, ?_, fun _ => rfl, fun rest => ?_⟩
      · rintro ⟨calls, hcalls⟩
        cases hcalls with
        | nil => exact absurd rfl hne
        | cons hcall _ => exact absurd hcall (hnone _ _ _ rfl)
      · have hskip : Token.skipStatement 0 (left ++ b :: (fs ++ c :: rest)) =
            Token.skipStatement 0 rest := by
          rw [Token.skipStatement_plain (fun t ht => hplain t (hsuffix.subset ht))
            (hstart.suffix hsuffix) (by simp [hb]),
            Token.skipStatement_group hb (balanced_of_fields hfs) hc]
        have hitem : readStatement (ws ++ b :: (fs ++ c :: rest)) =
            ⟨none, [fault], Token.skipStatement 0 rest⟩ := by
          rw [readStatement, readItem, hread]
          simp only [hskip]
        rw [statementsOf_of_readStatement (hon rest) hitem]
        rfl

end

/-- Statements with their tokens, without those up to the first that ends with a semicolon. -/
def behindSemicolon (after : List (List Token × Statement)) : List (List Token × Statement) :=
  (after.dropWhile fun p => !endsInSemicolon p.1).drop 1

private theorem statementsOf_closing {after : List (List Token × Statement)} {d : Token}
    (hafter : ∀ p ∈ after, IsStatement p.1 p.2) (hd : d.kind = .closeBrace) :
    statementsOf (after.flatMap Prod.fst ++ [d]) = (after.map Prod.snd, []) := by
  rw [statementsOf_append (Many.flatMap hafter), statementsOf_closed hd, List.append_nil]

private theorem statementsOf_skipStatement {after : List (List Token × Statement)} {d : Token}
    (hafter : ∀ p ∈ after, IsStatement p.1 p.2) (hd : d.kind = .closeBrace) :
    statementsOf (Token.skipStatement 0 (after.flatMap Prod.fst ++ [d])) =
      ((behindSemicolon after).map Prod.snd, []) := by
  induction after with
  | nil =>
    have hstop : Token.skipStatement 0 [d] = [d] := by simp [Token.skipStatement, hd]
    exact (congrArg statementsOf hstop).trans (statementsOf_closed hd [])
  | cons p after ih =>
    obtain ⟨hp, hafter⟩ := List.forall_mem_cons.mp hafter
    rw [List.flatMap_cons, List.append_assoc, skipStatement_statement hp]
    cases hends : endsInSemicolon p.1 with
    | true => simp [behindSemicolon, hends, statementsOf_closing hafter hd]
    | false => simpa [behindSemicolon, hends] using ih hafter

/-- An attribute with a body keeps the statements before and behind it if the tokens in front of the
body are calls. If they are not, all statements behind it are lost up to the first that ends with a
semicolon. -/
theorem readAll_attribute_body {kind : Kind} {name : String} {opening us header fs : List Token}
    {before : List Statement} {after : List (List Token × Statement)}
    {fields : List FieldStatement} {k b c d : Token} (hopening : IsOpening kind name opening)
    (hus : Many IsStatement us before) (hafter : ∀ p ∈ after, IsStatement p.1 p.2)
    (hd : d.kind = .closeBrace) (hk : IsWord "addAttribute" k) (hplain : ∀ t ∈ header, IsPlain t)
    (hstart : StartsNoBlock header) (hb : b.kind = .openBrace) (hfs : Many IsField fs fields)
    (hc : c.kind = .closeBrace) :
    let entry := k :: (header ++ b :: (fs ++ [c]))
    let tokens := opening ++ us ++ entry ++ after.flatMap Prod.fst ++ [d]
    let block (kept : List (List Token × Statement)) : Block × Extent :=
      (⟨kind, name, before ++ (statementsOf entry).1 ++ kept.map Prod.snd, none⟩, extentOf tokens)
    ((∃ calls, Many IsCall (k :: header) calls) → (readAll tokens).value = [block after]) ∧
      ((¬∃ calls, Many IsCall (k :: header) calls) →
        (readAll tokens).value = [block (behindSemicolon after)]) := by
  intro entry tokens block
  have hkplain : IsPlain k := by simp [IsPlain, hk.1]
  have hkstart : StartsNoBlock (k :: header) := hstart.cons (by rw [hk.2]; decide)
  obtain ⟨first, resume, hcalls, hnone, hbody⟩ := exists_statementsOf_body hb hfs hc
    (List.cons_ne_nil k header) (List.forall_mem_cons.mpr ⟨hkplain, hplain⟩) hkstart
  have hblock {kept : List (List Token × Statement)} (hnil : resume [] = [])
      (hkept : statementsOf (resume (after.flatMap Prod.fst ++ [d])) = (kept.map Prod.snd, [])) :
      (readAll tokens).value = [block kept] := by
    have hentry : (statementsOf entry).1 = first := by
      have halone := congrArg Prod.fst (hbody [])
      rw [hnil, statementsOf_nil, List.append_nil] at halone
      exact halone
    have hstatements : statementsOf (us ++ (entry ++ (after.flatMap Prod.fst ++ [d]))) =
        (before ++ (statementsOf entry).1 ++ kept.map Prod.snd, []) := by
      have hlater : statementsOf (entry ++ (after.flatMap Prod.fst ++ [d])) =
          (first ++ kept.map Prod.snd, []) := by
        simpa [entry, hkept] using hbody (after.flatMap Prod.fst ++ [d])
      rw [statementsOf_append hus, hlater, hentry, List.append_assoc]
    have hread := readAll_opening hopening hstatements
    simp only [← List.append_assoc] at hread
    exact hread
  refine ⟨fun h => hblock (by rw [hcalls h]; rfl) ?_, fun h => hblock (by rw [hnone h]; rfl) ?_⟩
  · rw [hcalls h]
    exact statementsOf_closing hafter hd
  · rw [hnone h]
    exact statementsOf_skipStatement hafter hd

/-- An attribute whose name is not followed by a parenthesis costs also the parent set behind its
body. -/
theorem readAll_attribute_body_unclosed :
    let opening : List Token :=
      [⟨.identifier, "Type", 0⟩, ⟨.openParen, "(", 4⟩, ⟨.string, "\"T\"", 5⟩,
        ⟨.closeParen, ")", 8⟩, ⟨.openBrace, "\x7b", 10⟩]
    let header : List Token := [⟨.openParen, "(", 24⟩, ⟨.string, "\"A\"", 25⟩]
    let table : List Token :=
      [⟨.identifier, "setSQLTable", 31⟩, ⟨.openParen, "(", 42⟩, ⟨.string, "\"t\"", 43⟩,
        ⟨.closeParen, ")", 46⟩, ⟨.semicolon, ";", 47⟩]
    let parent : List Token :=
      [⟨.identifier, "setParentType", 51⟩, ⟨.openParen, "(", 64⟩, ⟨.string, "\"P\"", 65⟩,
        ⟨.closeParen, ")", 68⟩, ⟨.semicolon, ";", 69⟩]
    let icon : List Token :=
      [⟨.identifier, "addIcon", 71⟩, ⟨.openParen, "(", 78⟩, ⟨.string, "\"i\"", 79⟩,
        ⟨.closeParen, ")", 82⟩, ⟨.semicolon, ";", 83⟩]
    let word : Token := ⟨.identifier, "addAttribute", 12⟩
    let brace : Token := ⟨.openBrace, "\x7b", 29⟩
    let entry := word :: (header ++ brace :: (table ++ [⟨.closeBrace, "\x7d", 49⟩]))
    let close : Token := ⟨.closeBrace, "\x7d", 85⟩
    IsOpening .type "T" opening ∧ IsStatement parent (.setParent "P") ∧
      IsStatement icon (.addIcon "i") ∧ Many IsField table [⟨.sqlTable, "t"⟩] ∧
      (¬∃ calls, Many IsCall (word :: header) calls) ∧
      (readAll (opening ++ entry ++ parent ++ icon ++ [close])).value =
        [(⟨.type, "T", [.addIcon "i"], none⟩, ⟨0, 86⟩)] := by
  intro opening header table parent icon word brace entry close
  have hopening : IsOpening .type "T" opening := by
    have hname : Text.unquote "\"T\"" = "T" := by decide
    rw [← hname]
    exact @IsOpening.mk .type _ _ ⟨.string, "\"T\"", 5⟩ _ _ ⟨rfl, rfl⟩ rfl rfl rfl (by decide) rfl
  have hparent : IsStatement parent (.setParent "P") := by
    have hname : Text.unquote "\"P\"" = "P" := by decide
    have hstatement : IsStatement parent (.setParent (Text.unquote "\"P\"")) :=
      .text (by simp [textStatements]) (.mk ⟨rfl, rfl⟩ rfl rfl rfl) rfl
    rwa [hname] at hstatement
  have hicon : IsStatement icon (.addIcon "i") := by
    have hname : Text.unquote "\"i\"" = "i" := by decide
    have hstatement : IsStatement icon (.addIcon (Text.unquote "\"i\"")) :=
      .text (by simp [textStatements]) (.mk ⟨rfl, rfl⟩ rfl rfl rfl) rfl
    rwa [hname] at hstatement
  have htable : Many IsField table [⟨.sqlTable, "t"⟩] := by
    have hname : Text.unquote "\"t\"" = "t" := by decide
    have hfield : IsField table ⟨.sqlTable, Text.unquote "\"t\""⟩ :=
      .set (.mk ⟨rfl, rfl⟩ rfl rfl rfl) rfl
    rw [hname] at hfield
    simpa using Many.cons hfield .nil
  have hnone : ¬∃ calls, Many IsCall (word :: header) calls :=
    not_many_isCall (by simp) (by simp [word, header])
  let after : List (List Token × Statement) := [(parent, .setParent "P"), (icon, .addIcon "i")]
  have hafter : ∀ p ∈ after, IsStatement p.1 p.2 := by simp [after, hparent, hicon]
  have hplain : ∀ t ∈ header, IsPlain t := by simp [header, IsPlain]
  have hstart : StartsNoBlock header := .of_words (by simp [header])
  have hentry : (statementsOf entry).1 = [] := by decide +kernel
  have hbehind : behindSemicolon after = [(icon, .addIcon "i")] := by
    simp [behindSemicolon, after, endsInSemicolon, parent]
  have hread : (readAll (opening ++ [] ++ entry ++ after.flatMap Prod.fst ++ [close])).value = _ :=
    (readAll_attribute_body hopening .nil hafter rfl ⟨rfl, rfl⟩ hplain hstart rfl htable rfl).2
      hnone
  have htokens : opening ++ [] ++ entry ++ after.flatMap Prod.fst ++ [close] =
      opening ++ entry ++ parent ++ icon ++ [close] := by simp [after]
  rw [htokens, hentry, hbehind] at hread
  exact ⟨hopening, hparent, hicon, htable, hnone, hread⟩

end Block

end UiCatalog
