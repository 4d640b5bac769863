import UiCatalog.Proofs.Block.File
/-!
# A broken block costs only itself

After a broken header the tokens up to the end of the next brace group are skipped, wherever the
header broke. A block without its closing brace ends where the next block starts. In both cases what
comes before and after is read as if nothing had happened, and there is one fault.
-/

namespace UiCatalog

namespace Grammar

/-- Tokens whose braces are closed in the order in which they are opened. -/
inductive Balanced : List Token → Prop where
  | nil : Balanced []
  | token {t : Token} {ts : List Token} (ho : t.kind ≠ .openBrace) (hc : t.kind ≠ .closeBrace)
    (hts : Balanced ts) : Balanced (t :: ts)
  | group {b d : Token} {us ts : List Token} (hb : b.kind = .openBrace) (hus : Balanced us)
    (hd : d.kind = .closeBrace) (hts : Balanced ts) : Balanced (b :: (us ++ d :: ts))

/-- The keyword of a kind and an opening parenthesis. -/
def IsBlockStart (k o : Token) : Prop :=
  (∃ kind : Kind, IsWord kind.keyword k) ∧ o.kind = .openParen

/-- No block starts anywhere in some tokens. -/
def StartsNoBlock (ts : List Token) : Prop :=
  ∀ us k o vs, ts = us ++ k :: o :: vs → ¬IsBlockStart k o

/-- A literal that is no blank name, in parentheses. -/
def IsHeader (ts : List Token) : Prop :=
  ∃ o s c : Token, ts = [o, s, c] ∧ o.kind = .openParen ∧ s.kind = .string ∧
    c.kind = .closeParen ∧ Text.trim (Text.unquote s.text) ≠ ""

/-- Something like a block whose keyword is of no kind or whose header is none. -/
inductive IsBrokenBlock : List Token → Prop where
  | mk {k b d : Token} {header us : List Token} (hk : k.kind = .identifier)
    (hplain : ∀ t ∈ header, t.kind ≠ .openBrace ∧ t.kind ≠ .closeBrace)
    (hstart : StartsNoBlock header) (hb : b.kind = .openBrace) (hus : Balanced us)
    (hd : d.kind = .closeBrace)
    (hbroken : (∀ kind : Kind, ¬IsWord kind.keyword k) ∨ ¬IsHeader header) :
    IsBrokenBlock (k :: (header ++ b :: (us ++ [d])))

/-- A block but for its closing brace. -/
def IsUnclosedBlock (ts : List Token) (block : Block) : Prop :=
  ∃ d extent, IsBlock (ts ++ [d]) (block, extent)

theorem StartsNoBlock.suffix {ts us : List Token} (h : StartsNoBlock us) (hsuffix : ts <:+ us) :
    StartsNoBlock ts := by
  obtain ⟨vs, rfl⟩ := hsuffix
  intro ws k o xs heq
  exact h (vs ++ ws) k o xs (by rw [heq, List.append_assoc])

end Grammar

open Grammar

namespace Token

private theorem startsBlock_cons_cons_iff {k o : Token} {ts : List Token} :
    startsBlock (k :: o :: ts) = true ↔ IsBlockStart k o := by
  have hword : (Kind.ofKeyword? k.text).isSome = true ↔ ∃ kind : Kind, k.text = kind.keyword := by
    rw [Option.isSome_iff_exists]
    exact exists_congr fun kind => Block.kindOfKeyword?_eq_some_iff
  simp only [startsBlock, Bool.and_eq_true, beq_iff_eq, hword, IsBlockStart, IsWord,
    exists_and_left]

theorem startsBlock_append {t z : Token} {ts : List Token} (h : StartsNoBlock (t :: ts))
    (hz : z.kind ≠ .openParen) (rest : List Token) :
    startsBlock (t :: (ts ++ z :: rest)) = false := by
  rw [Bool.eq_false_iff]
  cases ts with
  | nil => exact fun hstart => hz (startsBlock_cons_cons_iff.mp hstart).2
  | cons o ts => exact mt startsBlock_cons_cons_iff.mp (h [] t o ts rfl)

private theorem skipGroup_balanced {us : List Token} (h : Balanced us) (depth : Nat)
    (rest : List Token) : skipGroup (depth + 1) (us ++ rest) = skipGroup (depth + 1) rest := by
  induction h generalizing depth rest with
  | nil => rfl
  | @token t ts ho hc _ ih =>
    rw [List.cons_append, skipGroup]
    split
    · rename_i hkind
      exact absurd hkind ho
    · rename_i hkind
      exact absurd hkind hc
    · rw [if_neg (by simp), ih]
  | @group b d us ts hb _ hd _ ihus ihts =>
    have happend : b :: (us ++ d :: ts) ++ rest = b :: (us ++ d :: (ts ++ rest)) := by simp
    rw [happend, skipGroup]
    simp only [hb]
    rw [ihus, skipGroup]
    simp only [hd]
    rw [if_neg (by omega), Nat.add_sub_cancel, ihts]

theorem skipGroup_group {b d : Token} {us : List Token} (hb : b.kind = .openBrace)
    (hus : Balanced us) (hd : d.kind = .closeBrace) (rest : List Token) :
    skipGroup 0 (b :: (us ++ d :: rest)) = rest := by
  rw [skipGroup]
  simp only [hb]
  rw [skipGroup_balanced hus, skipGroup]
  simp only [hd]
  rw [if_pos (Nat.le_refl 1)]

private theorem skipGroup_header {header us : List Token} {b d : Token}
    (hplain : ∀ t ∈ header, t.kind ≠ .openBrace ∧ t.kind ≠ .closeBrace)
    (hstart : StartsNoBlock header) (hb : b.kind = .openBrace) (hus : Balanced us)
    (hd : d.kind = .closeBrace) (rest : List Token) :
    skipGroup 0 (header ++ b :: (us ++ d :: rest)) = rest := by
  induction header with
  | nil => exact skipGroup_group hb hus hd rest
  | cons t header ih =>
    obtain ⟨⟨ho, hc⟩, hplain⟩ := List.forall_mem_cons.mp hplain
    have hnone := startsBlock_append hstart (z := b) (by simp [hb]) (us ++ d :: rest)
    rw [List.cons_append, skipGroup]
    split
    · rename_i hkind
      exact absurd hkind ho
    · rename_i hkind
      exact absurd hkind hc
    · rw [if_neg (by simp [hnone])]
      exact ih hplain (hstart.suffix (List.suffix_cons t header))

end Token

/-- Whether a reading ends in a fault among the tokens `ts` that come before `rest`. -/
def Read.BreaksIn {α : Type} (r : Read α) (ts rest : List Token) : Prop :=
  ∃ fault left, left <:+ ts ∧ r = ⟨.error fault, left ++ rest⟩

namespace Block

/-- A reader that expects something else than the next token after `ts` breaks in `ts`, unless it
finds there what it expects and goes on. -/
private theorem expect_andThen_breaksIn {α : Type} {kind : TokenKind} {wanted : Wanted}
    {ts rest : List Token} {b : Token} {next : Token → List Token → Read α} (hb : b.kind ≠ kind)
    (hnext : ∀ t us, ts = t :: us → t.kind = kind →
      (next t (us ++ b :: rest)).BreaksIn us (b :: rest)) :
    ((Call.expect kind wanted (ts ++ b :: rest)).andThen next).BreaksIn ts (b :: rest) := by
  cases ts with
  | nil =>
    rw [List.nil_append, Call.expect, if_neg hb]
    exact ⟨_, [], List.suffix_refl [], rfl⟩
  | cons t us =>
    rw [List.cons_append, Call.expect]
    by_cases ht : t.kind = kind
    · rw [if_pos ht]
      obtain ⟨fault, left, hsuffix, heq⟩ := hnext t us rfl ht
      exact ⟨fault, left, hsuffix.trans (List.suffix_cons t us), heq⟩
    · rw [if_neg ht]
      exact ⟨_, t :: us, List.suffix_refl _, rfl⟩

private theorem readHeader_breaksIn {kind : Kind} {header rest : List Token} {b : Token}
    (hplain : ∀ t ∈ header, t.kind ≠ .openBrace ∧ t.kind ≠ .closeBrace)
    (hb : b.kind = .openBrace) (hheader : ¬IsHeader header) :
    (readHeader kind (header ++ b :: rest)).BreaksIn header (b :: rest) := by
  have hne {kind : TokenKind} (hkind : TokenKind.openBrace ≠ kind) : b.kind ≠ kind := by
    rw [hb]
    exact hkind
  refine expect_andThen_breaksIn (hne (by decide)) fun o ts ho hopen => ?_
  refine expect_andThen_breaksIn (hne (by decide)) fun s us hs hstring => ?_
  refine expect_andThen_breaksIn (hne (by decide)) fun c vs hc hclose => ?_
  subst ho hs hc
  by_cases hblank : Text.isAllBlank (Text.unquote s.text) = true
  · rw [if_pos hblank]
    exact ⟨_, vs, List.suffix_refl vs, rfl⟩
  · rw [if_neg hblank]
    cases vs with
    | nil =>
      refine absurd ⟨o, s, c, rfl, hopen, hstring, hclose, ?_⟩ hheader
      exact mt Text.isAllBlank_iff.mpr hblank
    | cons t vs =>
      have ht : t.kind ≠ .openBrace := (hplain t (by simp)).1
      rw [List.cons_append, Call.expect, if_neg ht]
      exact ⟨_, t :: vs, List.suffix_refl _, rfl⟩

private theorem readBlock_broken {k : Token} {ts : List Token} (h : IsBrokenBlock (k :: ts))
    (rest : List Token) :
    k.kind = .identifier ∧ ∃ fault, readBlock k (ts ++ rest) = ⟨none, [fault], rest⟩ := by
  generalize hts : k :: ts = broken at h
  obtain @⟨k', b, d, header, us, hk, hplain, hstart, hb, hus, hd, hbroken⟩ := h
  obtain ⟨rfl, rfl⟩ := List.cons.inj hts
  have happend : header ++ b :: (us ++ [d]) ++ rest = header ++ b :: (us ++ d :: rest) := by simp
  refine ⟨hk, ?_⟩
  rw [happend, readBlock]
  cases hkind : Kind.ofKeyword? k.text with
  | none => exact ⟨.unknownKind k, by simp only [Token.skipGroup_header hplain hstart hb hus hd]⟩
  | some kind =>
    have hword := kindOfKeyword?_eq_some_iff.mp hkind
    have hheader : ¬IsHeader header := hbroken.resolve_left fun hnone => hnone kind ⟨hk, hword⟩
    have hbreaks : (readHeader kind (header ++ b :: (us ++ d :: rest))).BreaksIn header
        (b :: (us ++ d :: rest)) := readHeader_breaksIn hplain hb hheader
    obtain ⟨fault, left, hleft, heq⟩ := hbreaks
    have hplain' : ∀ t ∈ left, t.kind ≠ .openBrace ∧ t.kind ≠ .closeBrace :=
      fun t ht => hplain t (hleft.subset ht)
    refine ⟨fault, ?_⟩
    simp only [heq, Token.skipGroup_header hplain' (hstart.suffix hleft) hb hus hd]

def extentOf (ts : List Token) : Extent :=
  ⟨(ts.head?.map Token.start).getD 0, (ts.getLast?.map Token.stop).getD 0⟩

def AtBlockStart (ts : List Token) : Prop :=
  ts = [] ∨ ∃ k o us, ts = k :: o :: us ∧ IsBlockStart k o

private theorem readBody_atBlockStart {α : Type} {item : List Token → Outcome (Option α)}
    {h : Advances item} {ts : List Token} (hts : AtBlockStart ts) :
    ∃ fault, readBody item h ts = ⟨[], [fault], ts⟩ := by
  rcases hts with rfl | ⟨k, o, us, rfl, hstart⟩
  · rw [readBody, dif_neg (by simp [goesOn])]
    exact ⟨_, rfl⟩
  · have hstops : ¬goesOn (k :: o :: us) = true := by
      rw [goesOn, Token.startsBlock_cons_cons_iff.mpr hstart]
      simp
    obtain ⟨⟨kind, hk, _⟩, _⟩ := hstart
    rw [readBody, dif_neg hstops]
    simp only [hk, reduceCtorEq, if_false]
    exact ⟨_, rfl⟩

private theorem readBlock_unclosed {k : Token} {ts rest : List Token} {block : Block}
    (h : IsUnclosedBlock (k :: ts) block) (hrest : AtBlockStart rest) :
    k.kind = .identifier ∧ ∃ fault,
      readBlock k (ts ++ rest) = ⟨some (block, extentOf (k :: ts)), [fault], rest⟩ := by
  obtain ⟨d, extent, h⟩ := h
  generalize hts : k :: ts ++ [d] = closed at h
  obtain @⟨kind, k', o, s, c, b, d', us, statements, hk, ho, hs, hc, hname, hb, hus, _⟩ := h
  have hsplit : k :: ts ++ [d] = (k' :: o :: s :: c :: b :: us) ++ [d'] := by
    rw [hts]
    simp
  obtain ⟨heq, _⟩ := List.append_inj' hsplit rfl
  obtain ⟨rfl, rfl⟩ := List.cons.inj heq
  have hheader : readHeader kind (o :: s :: c :: b :: (us ++ rest)) =
      ⟨.ok (Text.unquote s.text), us ++ rest⟩ :=
    readHeader_eq_ok_iff.mpr ⟨o, s, c, b, rfl, ho, hs, hc, hb, rfl, hname⟩
  have hfollow : ∀ t ∈ rest.head?, t.kind ≠ .semicolon := by
    rcases hrest with rfl | ⟨k', o', vs, rfl, ⟨_, hk', _⟩, _⟩
    · simp
    · simp [hk']
  obtain ⟨fault, hend⟩ := readBody_atBlockStart (h := readStatement_advances) hrest
  have hbody : readBody readStatement readStatement_advances (us ++ rest) =
      ⟨statements, [fault], rest⟩ := by
    rw [readStatement_exact.readBody_append hus hfollow, hend, List.append_nil]
  have hextent := extentBefore_append (k :: o :: s :: c :: b :: us) rest
  refine ⟨hk.1, fault, ?_⟩
  have hkind := kindOfKeyword?_eq_some_iff.mpr hk.2
  simp only [readBlock, List.cons_append, hkind, hheader, hbody] at hextent ⊢
  rw [hextent]
  rfl

/-- Between a sound beginning and any rest, a broken block costs one fault and nothing else, and a
block without its closing brace costs one fault and no statement. -/
theorem readAll_damaged {before : List Token} (hbefore : (readAll before).faults = [])
    (after : List Token) :
    (∀ ts, IsBrokenBlock ts → ∃ fault, readAll (before ++ ts ++ after) =
      ⟨(readAll before).value ++ (readAll after).value, fault :: (readAll after).faults,
        (readAll after).rest⟩) ∧
    ∀ ts block, IsUnclosedBlock ts block → AtBlockStart after → ∃ fault,
      readAll (before ++ ts ++ after) =
        ⟨(readAll before).value ++ (block, extentOf ts) :: (readAll after).value,
          fault :: (readAll after).faults, (readAll after).rest⟩ := by
  obtain ⟨blocks, hfile⟩ := readAll_sound hbefore
  have hvalue : (readAll before).value = blocks := by
    rw [readAll_complete hfile]
    rfl
  have hnext {k : Token} {ts : List Token} {value : Option (Block × Extent)} {fault : Fault}
      (hk : k.kind = .identifier) (hread : readBlock k (ts ++ after) = ⟨value, [fault], after⟩) :
      readAll (before ++ k :: ts ++ after) =
        ⟨(readAll before).value ++ (value.toList ++ (readAll after).value),
          fault :: (readAll after).faults, (readAll after).rest⟩ := by
    rw [List.append_assoc, readAll_append hfile, hvalue, List.cons_append, readAll, if_pos hk]
    simp only [hread, List.cons_append, List.nil_append]
  refine ⟨fun ts hts => ?_, fun ts block hts hafter => ?_⟩
  · cases ts with
    | nil => cases hts
    | cons k ts =>
      obtain ⟨hk, fault, hread⟩ := readBlock_broken hts after
      exact ⟨fault, hnext hk hread⟩
  · cases ts with
    | nil =>
      obtain ⟨d, extent, hblock⟩ := hts
      cases hblock
    | cons k ts =>
      obtain ⟨hk, fault, hread⟩ := readBlock_unclosed hts hafter
      exact ⟨fault, hnext hk hread⟩

/-- Between a menu and its copy, something of no kind costs itself, and a form that is not closed
costs nothing. -/
theorem readAll_damaged_between_menus :
    let menu : List Token :=
      [⟨.identifier, "Menu", 0⟩, ⟨.openParen, "(", 4⟩, ⟨.string, "\"A\"", 5⟩,
        ⟨.closeParen, ")", 8⟩, ⟨.openBrace, "\x7b", 9⟩, ⟨.closeBrace, "\x7d", 10⟩]
    let broken : List Token :=
      [⟨.identifier, "Widget", 12⟩, ⟨.openBrace, "\x7b", 18⟩, ⟨.closeBrace, "\x7d", 19⟩]
    let unclosed : List Token :=
      [⟨.identifier, "Form", 12⟩, ⟨.openParen, "(", 16⟩, ⟨.string, "\"F\"", 17⟩,
        ⟨.closeParen, ")", 20⟩, ⟨.openBrace, "\x7b", 21⟩]
    (readAll menu).faults = [] ∧ IsBrokenBlock broken ∧
      IsUnclosedBlock unclosed ⟨.form, "F", [], none⟩ ∧ AtBlockStart menu ∧
      (∃ fault, readAll (menu ++ broken ++ menu) =
        ⟨[(⟨.menu, "A", [], none⟩, ⟨0, 11⟩), (⟨.menu, "A", [], none⟩, ⟨0, 11⟩)], [fault], []⟩) ∧
      ∃ fault, readAll (menu ++ unclosed ++ menu) =
        ⟨[(⟨.menu, "A", [], none⟩, ⟨0, 11⟩), (⟨.form, "F", [], none⟩, ⟨12, 22⟩),
          (⟨.menu, "A", [], none⟩, ⟨0, 11⟩)], [fault], []⟩ := by
  intro menu broken unclosed
  have hread : readAll menu = ⟨[(⟨.menu, "A", [], none⟩, ⟨0, 11⟩)], [], []⟩ := by
    have hname : Text.unquote "\"A\"" = "A" := by decide
    have hblock : IsBlock menu (⟨.menu, Text.unquote "\"A\"", [], none⟩, ⟨0, 11⟩) :=
      @IsBlock.mk .menu _ _ _ _ _ _ [] [] ⟨rfl, rfl⟩ rfl rfl rfl (by decide) rfl .nil rfl
    have hfile : IsFile menu _ := .cons hblock .nil
    rw [readAll_complete hfile, hname]
    rfl
  have hbroken : IsBrokenBlock broken := by
    refine @IsBrokenBlock.mk _ _ _ [] [] rfl (by simp) ?_ rfl .nil rfl (Or.inl ?_)
    · intro us k o vs h
      simp at h
    · rintro kind ⟨_, hword⟩
      cases kind <;> simp [Kind.keyword] at hword
  have hunclosed : IsUnclosedBlock unclosed ⟨.form, "F", [], none⟩ := by
    have hname : Text.unquote "\"F\"" = "F" := by decide
    refine ⟨⟨.closeBrace, "\x7d", 22⟩, ⟨12, 23⟩, ?_⟩
    rw [← hname]
    exact @IsBlock.mk .form _ _ _ _ _ _ [] [] ⟨rfl, rfl⟩ rfl rfl rfl (by decide) rfl .nil rfl
  have hafter : AtBlockStart menu := Or.inr ⟨_, _, _, rfl, ⟨.menu, rfl, rfl⟩, rfl⟩
  obtain ⟨hskipped, hkept⟩ := readAll_damaged (congrArg Outcome.faults hread) menu
  obtain ⟨fault, hfault⟩ := hskipped broken hbroken
  obtain ⟨fault', hfault'⟩ := hkept unclosed _ hunclosed hafter
  rw [hread] at hfault hfault'
  exact ⟨congrArg Outcome.faults hread, hbroken, hunclosed, hafter, ⟨fault, hfault⟩,
    ⟨fault', hfault'⟩⟩

end Block

end UiCatalog
