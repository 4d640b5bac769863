import UiCatalog.Proofs.Block.Locality
/-!
# A broken statement costs only itself

Balanced tokens in which no block starts may stand in a block in place of statements. If they end
with a semicolon, every reader comes to a stop behind it, whatever went wrong before. So the
statements in front and behind are kept, and what is read in between is read from these tokens.
-/

namespace UiCatalog

namespace Grammar

/-- The keyword of a kind, a name in parentheses and an opening brace. -/
inductive IsOpening (kind : Kind) : String → List Token → Prop where
  | mk {k o s c b : Token} (hk : IsWord kind.keyword k) (ho : o.kind = .openParen)
    (hs : s.kind = .string) (hc : c.kind = .closeParen)
    (hname : Text.trim (Text.unquote s.text) ≠ "") (hb : b.kind = .openBrace) :
    IsOpening kind (Text.unquote s.text) [k, o, s, c, b]

theorem Balanced.append_left {ts us : List Token} (h : Balanced us)
    (hts : ∀ t ∈ ts, t.kind ≠ .openBrace ∧ t.kind ≠ .closeBrace) : Balanced (ts ++ us) := by
  induction ts with
  | nil => exact h
  | cons t ts ih =>
    obtain ⟨⟨ho, hc⟩, hts⟩ := List.forall_mem_cons.mp hts
    exact .token ho hc (ih hts)

private theorem not_isBlockStart {k o : Token}
    (hk : k.kind = .identifier → Kind.ofKeyword? k.text = none) : ¬IsBlockStart k o := by
  rintro ⟨⟨kind, hkind, hword⟩, _⟩
  have hnone := hk hkind
  rw [Block.kindOfKeyword?_eq_some_iff.mpr hword] at hnone
  cases hnone

theorem StartsNoBlock.of_words {ts : List Token}
    (h : ∀ t ∈ ts, t.kind = .identifier → Kind.ofKeyword? t.text = none) : StartsNoBlock ts := by
  rintro us k o vs rfl
  exact not_isBlockStart (h k (by simp))

theorem StartsNoBlock.cons {k : Token} {ts : List Token} (h : StartsNoBlock ts)
    (hk : Kind.ofKeyword? k.text = none) : StartsNoBlock (k :: ts) := by
  intro us k' o vs heq
  cases us with
  | nil => exact (List.cons.inj heq).1 ▸ not_isBlockStart fun _ => hk
  | cons _ us => exact h us k' o vs (List.cons.inj heq).2

private theorem Balanced.of_concat {us : List Token} {z : Token} (h : Balanced (us ++ [z]))
    (hz : z.kind ≠ .closeBrace) : Balanced us := by
  generalize hts : us ++ [z] = ts at h
  induction h generalizing us with
  | nil => simp at hts
  | token ho hc _ ih =>
    cases us with
    | nil => exact .nil
    | cons t us =>
      obtain ⟨rfl, htail⟩ := List.cons.inj hts
      exact .token ho hc (ih htail)
  | @group b d vs ts hb hvs hd _ _ ih =>
    cases us with
    | nil => simp at hts
    | cons t us =>
      obtain ⟨rfl, htail⟩ := List.cons.inj hts
      rcases List.eq_nil_or_concat ts with rfl | ⟨ts, z', rfl⟩
      · obtain ⟨_, hlast⟩ := List.append_inj' htail rfl
        exact absurd ((List.cons.inj hlast).1 ▸ hd) hz
      · have hsplit : us ++ [z] = (vs ++ d :: ts) ++ [z'] := by simpa using htail
        obtain ⟨rfl, hlast⟩ := List.append_inj' hsplit rfl
        exact .group hb hvs hd (ih (by rw [hlast, List.concat_eq_append]))

end Grammar

namespace Block

open Grammar

/-- The statements of a body and what follows it, apart from the faults. -/
def statementsOf (ts : List Token) : List Statement × List Token :=
  let body := readBody readStatement readStatement_advances ts
  (body.value, body.rest)

theorem statementsOf_of_readStatement {ts : List Token} {first : Outcome (Option Statement)}
    (hon : goesOn ts) (h : readStatement ts = first) : statementsOf ts =
      (first.value.toList ++ (statementsOf first.rest).1, (statementsOf first.rest).2) := by
  rw [statementsOf, readBody, dif_pos hon]
  simp only [h, statementsOf]

theorem statementsOf_nil : statementsOf [] = ([], []) := by
  rw [statementsOf, readBody, dif_neg (by simp [goesOn])]

theorem statementsOf_closed {d : Token} (hd : d.kind = .closeBrace) (rest : List Token) :
    statementsOf (d :: rest) = ([], rest) := by
  rw [statementsOf, readBody, dif_neg (by simp [goesOn, hd])]
  simp only [hd, if_true]

theorem statementsOf_dropSemicolon (ts : List Token) :
    statementsOf (Token.dropSemicolon ts) = statementsOf ts := by
  cases ts with
  | nil => rfl
  | cons e ts =>
    by_cases he : e.kind = .semicolon
    · have hon : goesOn (e :: ts) := by cases ts <;> simp [goesOn, Token.startsBlock, he]
      have hread : readStatement (e :: ts) =
          ⟨none, [.unexpected .statement e], ts⟩ := by
        simp [readStatement, readItem, Call.read, Call.expect, Read.andThen, Token.skipStatement,
          he]
      rw [statementsOf_of_readStatement hon hread, Token.dropSemicolon, if_pos he]
      rfl
    · rw [Token.dropSemicolon, if_neg he]

/-- Statements are kept whatever follows them. -/
theorem statementsOf_append {us : List Token} {before : List Statement}
    (hus : Many IsStatement us before) (rest : List Token) :
    statementsOf (us ++ rest) = (before ++ (statementsOf rest).1, (statementsOf rest).2) := by
  induction hus with
  | nil => rfl
  | @cons ts us s before hts _ ih =>
    have hon := readStatement_exact.goesOn hts (us ++ rest)
    rw [List.append_assoc]
    rcases readStatement_append hts with hread | hread
    · rw [statementsOf_of_readStatement hon (hread _)]
      simp only [Outcome.clean, ih, Option.toList_some, List.cons_append, List.nil_append]
    · rw [statementsOf_of_readStatement hon (hread _)]
      simp only [Outcome.clean, statementsOf_dropSemicolon, ih, Option.toList_some,
        List.cons_append, List.nil_append]

private theorem statementsOf_run {e : Token} {run : List Token} (he : e.kind = .semicolon)
    (hrun : RunsTo e run) (rest : List Token) : statementsOf (run ++ rest) =
      ((statementsOf run).1 ++ (statementsOf rest).1, (statementsOf rest).2) :=
  Prod.ext_iff.mpr (readBody_run he (readStatement_staysIn (Or.inl he)) hrun rest)

/-- A block with a sound opening has the statements that its body is read as. -/
theorem readAll_opening {kind : Kind} {name : String} {opening ts : List Token}
    {statements : List Statement} (h : IsOpening kind name opening)
    (hts : statementsOf ts = (statements, [])) : (readAll (opening ++ ts)).value =
      [(⟨kind, name, statements, none⟩, extentOf (opening ++ ts))] := by
  obtain @⟨k, o, s, c, b, hk, ho, hs, hc, hname, hb⟩ := h
  obtain ⟨hvalue, hrest⟩ := Prod.mk.inj hts
  have hkind := kindOfKeyword?_eq_some_iff.mpr hk.2
  have hheader : readHeader kind (o :: s :: c :: b :: ts) = ⟨.ok (Text.unquote s.text), ts⟩ :=
    readHeader_eq_ok_iff.mpr ⟨o, s, c, b, rfl, ho, hs, hc, hb, rfl, hname⟩
  have hextent := extentBefore_append (k :: o :: s :: c :: b :: ts) []
  rw [List.append_nil] at hextent
  have hnil : (readAll []).value = [] := by rw [readAll]
  simp only [List.cons_append, List.nil_append]
  rw [readAll, if_pos hk.1]
  simp only [readBlock, hkind, hheader, hvalue, hrest, hextent, hnil]
  rfl

/-- Between the statements of a block, balanced tokens that end with a semicolon and in which no
block starts cost no statement: they add what they are read as when they stand alone. -/
theorem readAll_broken_statement {kind : Kind} {name : String} {opening us run vs : List Token}
    {before after : List Statement} {d : Token} (hopening : IsOpening kind name opening)
    (hus : Many IsStatement us before) (hvs : Many IsStatement vs after) (hd : d.kind = .closeBrace)
    (hbalanced : Balanced run) (hstart : StartsNoBlock run)
    (hlast : ∃ e ∈ run.getLast?, e.kind = .semicolon) :
    (readAll (opening ++ us ++ run ++ vs ++ [d])).value =
      [(⟨kind, name, before ++ (statementsOf run).1 ++ after, none⟩,
        extentOf (opening ++ us ++ run ++ vs ++ [d]))] := by
  obtain ⟨e, hlast, he⟩ := hlast
  obtain ⟨run, rfl⟩ := List.getLast?_eq_some_iff.mp hlast
  have hrun : RunsTo e (run ++ [e]) :=
    (hbalanced.of_concat (by simp [he])).runsTo hstart.of_append fun h => h.1 he
  have hend : statementsOf (vs ++ [d]) = (after, []) := by
    rw [statementsOf_append hvs, statementsOf_closed hd, List.append_nil]
  have hbody : statementsOf (us ++ (run ++ [e] ++ (vs ++ [d]))) =
      (before ++ (statementsOf (run ++ [e])).1 ++ after, []) := by
    rw [statementsOf_append hus, statementsOf_run he hrun, hend, List.append_assoc]
  have hblock := readAll_opening hopening hbody
  simp only [← List.append_assoc] at hblock ⊢
  exact hblock

/-- Between two icons, a call without its semicolon and a group with other tokens are read up to
the semicolon behind the group. -/
theorem readAll_broken_statement_between_icons :
    let opening : List Token :=
      [⟨.identifier, "Menu", 0⟩, ⟨.openParen, "(", 4⟩, ⟨.string, "\"M\"", 5⟩,
        ⟨.closeParen, ")", 8⟩, ⟨.openBrace, "\x7b", 9⟩]
    let icon : List Token :=
      [⟨.identifier, "addIcon", 10⟩, ⟨.openParen, "(", 17⟩, ⟨.string, "\"i\"", 18⟩,
        ⟨.closeParen, ")", 21⟩, ⟨.semicolon, ";", 22⟩]
    let call : List Token :=
      [⟨.identifier, "addTargetForm", 23⟩, ⟨.openParen, "(", 36⟩, ⟨.string, "\"F\"", 37⟩,
        ⟨.closeParen, ")", 40⟩, ⟨.invalid, "?", 41⟩]
    let inner : List Token := [⟨.openParen, "(", 43⟩, ⟨.semicolon, ";", 44⟩]
    let rest : List Token := [⟨.comma, ",", 46⟩, ⟨.semicolon, ";", 47⟩]
    let run : List Token :=
      call ++ ⟨.openBrace, "\x7b", 42⟩ :: (inner ++ ⟨.closeBrace, "\x7d", 45⟩ :: rest)
    let close : Token := ⟨.closeBrace, "\x7d", 70⟩
    IsOpening .menu "M" opening ∧ Many IsStatement icon [.addIcon "i"] ∧ Balanced run ∧
      StartsNoBlock run ∧
      (readAll (opening ++ icon ++ run ++ icon ++ [close])).value =
        [(⟨.menu, "M", [.addIcon "i", .addTargetForm "F", .addIcon "i"], none⟩, ⟨0, 71⟩)] := by
  intro opening icon call inner rest run close
  have hopening : IsOpening .menu "M" opening := by
    have hname : Text.unquote "\"M\"" = "M" := by decide
    rw [← hname]
    exact @IsOpening.mk .menu _ _ ⟨.string, "\"M\"", 5⟩ _ _ ⟨rfl, rfl⟩ rfl rfl rfl (by decide) rfl
  have hicon : Many IsStatement icon [.addIcon "i"] := by
    have hname : Text.unquote "\"i\"" = "i" := by decide
    have hstatement : IsStatement icon (.addIcon (Text.unquote "\"i\"")) :=
      .text (by simp [textStatements]) (.mk ⟨rfl, rfl⟩ rfl rfl rfl) rfl
    rw [hname] at hstatement
    simpa using Many.cons hstatement .nil
  have hinner : Balanced inner := .token (by simp) (by simp) (.token (by simp) (by simp) .nil)
  have hrest : Balanced rest := .token (by simp) (by simp) (.token (by simp) (by simp) .nil)
  have hbalanced : Balanced run :=
    (Balanced.group rfl hinner rfl hrest).append_left (by simp [call])
  have hstart : StartsNoBlock run := .of_words (by decide +kernel)
  have hread : (statementsOf run).1 = [.addTargetForm "F"] := by decide +kernel
  refine ⟨hopening, hicon, hbalanced, hstart, ?_⟩
  rw [readAll_broken_statement hopening hicon hicon rfl hbalanced hstart ⟨_, rfl, rfl⟩, hread]
  rfl

end Block

end UiCatalog
