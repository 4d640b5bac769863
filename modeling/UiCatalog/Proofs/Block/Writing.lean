import UiCatalog.Proofs.Block.Grammar
import UiCatalog.Proofs.Token.Spelling
/-!
# Writing blocks

Blocks can be written as a definition file, each statement on a line of its own. What is written
spells a sentence of the grammar that says the same again.
-/

namespace UiCatalog

open Grammar Token

def writeCall (word arguments : String) : String :=
  word ++ "(" ++ arguments ++ ")"

/-- A call with a semicolon, on a line of its own. -/
def writeLine (indent call : String) : String :=
  indent ++ call ++ ";\n"

def writeBody (indent : String) (items : List String) : String :=
  " \x7b\n" ++ String.join items ++ indent ++ "\x7d\n"

def FieldStatement.write (f : FieldStatement) : String :=
  writeLine "        " (writeCall f.field.keyword (Text.quote f.value))

/-- A statement as it is written; an attribute has a body even if there is nothing in it. -/
def Statement.write (s : Statement) : String :=
  match s with
  | .setUuid text | .setParent text | .addIcon text | .addTargetTable text | .addTargetForm text
  | .addTargetMenu text => writeLine "    " (writeCall s.keyword (Text.quote text))
  | .addProperty key value =>
    writeLine "    " (writeCall s.keyword (Text.quote key ++ ", " ++ Text.quote value))
  | .addChild kind name =>
    writeLine "    " (writeCall s.keyword (writeCall kind.keyword (Text.quote name)))
  | .addAttribute name body =>
    "    " ++ writeCall s.keyword (Text.quote name) ++
      writeBody "    " (body.map FieldStatement.write)

namespace Block

def write (block : Block) : String :=
  writeCall block.kind.keyword (Text.quote block.name) ++
    writeBody "" (block.statements.map Statement.write)

def writeAll (blocks : List Block) : String :=
  String.join (blocks.map write)

/-- A block without its origin. -/
def bare (block : Block) : Block :=
  { block with origin := none }

end Block

private theorem spells_mark {s : String} {kind : TokenKind} (before : List Char) (c : Char)
    (after : List Char) (hs : s.toList = before ++ c :: after) (hbefore : before.all isSpace = true)
    (hc : ∀ rest, lexeme c rest = ⟨some kind, [c], rest⟩) (hafter : after.all isSpace = true) :
    Spells s fun ts => ∃ t : Token, ts = [t] ∧ t.kind = kind := by
  have hsplit : s = String.ofList before ++ String.ofList [c] ++ String.ofList after := by
    rw [← String.toList_inj, hs]
    simp
  have hfirst : Spells (String.ofList before) (· = []) := spells_blank (by simpa using hbefore)
  have hmark := spells_lexeme (String.toList_ofList (l := [c])) hc
  have hlast : Spells (String.ofList after) (· = []) := spells_blank (by simpa using hafter)
  rw [hsplit]
  refine ((hfirst.append hmark).append hlast).mono ?_
  rintro _ ⟨_, _, rfl, ⟨_, _, rfl, rfl, t, rfl, hkind, _⟩, rfl⟩
  exact ⟨t, rfl, hkind⟩

private theorem spells_call {word arguments : String} {L : List Token → Prop}
    (hword : isWord word = true) (harguments : Spells arguments L) :
    Spells (writeCall word arguments) fun ts => ∃ k o us c, ts = k :: o :: us ++ [c] ∧
      IsWord word k ∧ o.kind = .openParen ∧ L us ∧ c.kind = .closeParen := by
  have hclose := spells_mark (s := ")") [] ')' [] rfl rfl (fun _ => rfl) rfl
  refine (((spells_word hword).append harguments).append hclose).mono ?_
  rintro _ ⟨_, _, rfl, ⟨_, us, rfl, ⟨k, o, rfl, hkind, htext, ho⟩, hus⟩, c, rfl, hc⟩
  exact ⟨k, o, us, c, rfl, ⟨hkind, htext⟩, ho, hus, hc⟩

private theorem spells_oneText {word : String} (hword : isWord word = true) (text : String) :
    Spells (writeCall word (Text.quote text)) (OneText word · text) := by
  refine (spells_call hword (spells_quote text)).mono ?_
  rintro _ ⟨k, o, _, c, rfl, hk, ho, ⟨s, rfl, hs, rfl⟩, hc⟩
  exact .mk hk ho hs hc

private theorem spells_line {indent call : String} {L : List Token → Prop}
    (hindent : indent.toList.all isSpace = true) (hcall : Spells call L) :
    Spells (writeLine indent call) fun ts => ∃ us e, ts = us ++ [e] ∧ L us ∧
      e.kind = .semicolon := by
  have hend := spells_mark (s := ";\n") [] ';' ['\n'] rfl rfl (fun _ => rfl) rfl
  refine (((spells_blank hindent).append hcall).append hend).mono ?_
  rintro _ ⟨_, _, rfl, ⟨_, us, rfl, rfl, hus⟩, e, rfl, he⟩
  exact ⟨us, e, rfl, hus, he⟩

theorem spells_join {α : Type} {write : α → String} {L : List Token → α → Prop} {as : List α}
    (h : ∀ a ∈ as, Spells (write a) (L · a)) :
    Spells (String.join (as.map write)) (Many L · as) := by
  induction as with
  | nil =>
    refine (spells_blank (s := "") rfl).mono ?_
    rintro _ rfl
    exact .nil
  | cons a as ih =>
    obtain ⟨ha, has⟩ := List.forall_mem_cons.mp h
    rw [List.map_cons, String.join_cons]
    refine (ha.append (ih has)).mono ?_
    rintro _ ⟨us, vs, rfl, hus, hvs⟩
    exact .cons hus hvs

private theorem spells_body {α : Type} {indent : String} {write : α → String}
    {L : List Token → α → Prop} {as : List α} (hindent : indent.toList.all isSpace = true)
    (h : ∀ a ∈ as, Spells (write a) (L · a)) :
    Spells (writeBody indent (as.map write)) fun ts => ∃ b us d, ts = b :: (us ++ [d]) ∧
      b.kind = .openBrace ∧ Many L us as ∧ d.kind = .closeBrace := by
  have hopen := spells_mark (s := " \x7b\n") [' '] '\x7b' ['\n'] rfl rfl (fun _ => rfl) rfl
  have hclose := spells_mark (s := "\x7d\n") [] '\x7d' ['\n'] rfl rfl (fun _ => rfl) rfl
  refine (((hopen.append (spells_join h)).append (spells_blank hindent)).append hclose).mono ?_
  rintro _ ⟨_, _, rfl, ⟨_, _, rfl, ⟨_, us, rfl, ⟨b, rfl, hb⟩, hus⟩, rfl⟩, d, rfl, hd⟩
  exact ⟨b, us, d, by simp, hb, hus, hd⟩

private theorem Field.isWord_keyword (field : Field) : isWord field.keyword = true := by
  cases field <;> rfl

private theorem Statement.isWord_keyword (s : Statement) : isWord s.keyword = true := by
  unfold keyword
  split <;> decide

private theorem ChildKind.isWord_keyword (kind : ChildKind) : isWord kind.keyword = true := by
  cases kind <;> rfl

private theorem Kind.isWord_keyword (kind : Kind) : isWord kind.keyword = true := by
  cases kind <;> rfl

private theorem FieldStatement.spells_write (f : FieldStatement) :
    Spells f.write (IsField · f) := by
  refine (spells_line (by decide) (spells_oneText f.field.isWord_keyword f.value)).mono ?_
  rintro _ ⟨us, e, rfl, hus, he⟩
  exact .set hus he

private theorem Statement.spells_write {s : Statement}
    (hname : ∀ name body, s = .addAttribute name body → Text.trim name ≠ "") :
    Spells s.write (IsStatement · s) := by
  have hindent : "    ".toList.all isSpace = true := by decide
  have hword := s.isWord_keyword
  have htext (word : String) (make : String → Statement) (hmake : (word, make) ∈ textStatements)
      (hword : isWord word = true) (text : String) :
      Spells (writeLine "    " (writeCall word (Text.quote text))) (IsStatement · (make text)) := by
    refine (spells_line hindent (spells_oneText hword text)).mono ?_
    rintro _ ⟨us, e, rfl, hus, he⟩
    exact .text hmake hus he
  cases s with
  | setUuid text => exact htext "setUUID" _ (by simp [textStatements]) hword text
  | setParent text => exact htext "setParentType" _ (by simp [textStatements]) hword text
  | addIcon text => exact htext "addIcon" _ (by simp [textStatements]) hword text
  | addTargetTable text => exact htext "addTargetTable" _ (by simp [textStatements]) hword text
  | addTargetForm text => exact htext "addTargetForm" _ (by simp [textStatements]) hword text
  | addTargetMenu text => exact htext "addTargetMenu" _ (by simp [textStatements]) hword text
  | addProperty key value =>
    have hcomma := spells_mark (s := ", ") [] ',' [' '] rfl rfl (fun _ => rfl) rfl
    have hpair := ((spells_quote key).append hcomma).append (spells_quote value)
    refine (spells_line hindent (spells_call hword hpair)).mono ?_
    rintro _ ⟨_, e, rfl, ⟨k, o, _, c, rfl, hk, ho, ⟨_, _, rfl, hleft, hright⟩, hc⟩, he⟩
    obtain ⟨_, _, rfl, ⟨s, rfl, hs, rfl⟩, m, rfl, hm⟩ := hleft
    obtain ⟨t, rfl, ht, rfl⟩ := hright
    exact .property hk ho hs hm ht hc he
  | addChild kind name =>
    have hchild := spells_oneText kind.isWord_keyword name
    refine (spells_line hindent (spells_call hword hchild)).mono ?_
    rintro _ ⟨_, e, rfl, ⟨k, o, us, c, rfl, hk, ho, hus, hc⟩, he⟩
    rw [List.append_assoc]
    exact .child hk ho hus hc he
  | addAttribute name body =>
    have hbody := spells_body hindent fun f (_ : f ∈ body) => f.spells_write
    refine (((spells_blank hindent).append (spells_oneText hword name)).append hbody).mono ?_
    rintro _ ⟨_, _, rfl, ⟨_, us, rfl, rfl, hus⟩, b, vs, d, rfl, hb, hvs, hd⟩
    exact .bodiedAttribute hus (hname name body rfl) hb hvs hd (Or.inl rfl)

namespace Block

theorem spells_write {block : Block} (hname : Text.trim block.name ≠ "")
    (hattributes : ∀ name body, .addAttribute name body ∈ block.statements → Text.trim name ≠ "") :
    Spells block.write fun ts => ∃ extent, IsBlock ts (block.bare, extent) := by
  obtain ⟨kind, name, statements, origin⟩ := block
  have hstatement : ∀ s ∈ statements, Spells s.write (IsStatement · s) := by
    intro s hs
    refine Statement.spells_write fun name body heq => hattributes name body ?_
    rwa [← heq]
  have hindent : "".toList.all isSpace = true := rfl
  have hbody := spells_body hindent hstatement
  refine ((spells_oneText kind.isWord_keyword name).append hbody).mono ?_
  rintro _ ⟨_, _, rfl, ⟨hk, ho, hs, hc⟩, b, us, d, rfl, hb, hus, hd⟩
  exact ⟨_, .mk hk ho hs hc hname hb hus hd⟩

example : write ⟨.menu, "A\"B", [.addChild .command "C",
      .addAttribute "D" [⟨.type, "Link"⟩]], none⟩ =
    "Menu(\"A\\\"B\") \x7b\n    addChild(CommandRef(\"C\"));\n    addAttribute(\"D\") \x7b\n" ++
      "        setAttributeType(\"Link\");\n    \x7d\n\x7d\n" := by
  decide

end Block

end UiCatalog
