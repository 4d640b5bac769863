import UiCatalog.Document
import UiCatalog.Proofs.Block.File
/-!
# Whatever is read stands in the tokens

However broken the tokens are, each block that is read was written: its keyword, its header and its
statements are parts of the tokens, in order and apart from each other, and so are the field
statements in the body of an attribute. What lies between the parts was skipped.
-/

namespace UiCatalog

def Statement.arguments : Statement → List Argument
  | .setUuid text => [.text text]
  | .setParent name => [.text name]
  | .addProperty key value => [.text key, .text value]
  | .addAttribute name _ => [.text name]
  | .addIcon icon => [.text icon]
  | .addTargetTable name => [.text name]
  | .addTargetForm name => [.text name]
  | .addTargetMenu name => [.text name]
  | .addChild kind name => [.reference kind.keyword name]

def Statement.body : Statement → List FieldStatement
  | .addAttribute _ body => body
  | _ => []

namespace Grammar

/-- Values that parts of some tokens say, in order and apart from each other, with any tokens
between the parts. -/
inductive Among {α : Type} (L : List Token → α → Prop) : List Token → List α → Prop where
  | nil (gap : List Token) : Among L gap []
  | cons {gap ts us : List Token} {a : α} {as : List α} (h : L ts a) (hs : Among L us as) :
    Among L (gap ++ ts ++ us) (a :: as)

/-- A field statement without its semicolon. -/
def FieldPart (ts : List Token) (s : FieldStatement) : Prop :=
  OneText s.field.keyword ts s.value

/-- A statement without its semicolon, as a call with exactly its keyword and its arguments; an
attribute may have a body, of which the closing brace may be missing. -/
inductive StatementPart : List Token → Statement → Prop where
  | call {ts : List Token} {call : Call} {s : Statement} (hcall : IsCall ts call)
    (hname : call.name = s.keyword) (harguments : call.arguments = s.arguments)
    (hbody : s.body = []) : StatementPart ts s
  | attribute {ts us : List Token} {b : Token} {name : String} {body : List FieldStatement}
    (hts : OneText "addAttribute" ts name) (hb : b.kind = .openBrace)
    (hus : Among FieldPart us body) : StatementPart (ts ++ b :: us) (.addAttribute name body)

/-- A block from its keyword to its last token, with the range of these tokens. -/
inductive BlockPart : List Token → Block × Extent → Prop where
  | mk {kind : Kind} {k o s c b : Token} {us : List Token} {statements : List Statement}
    (hk : IsWord kind.keyword k) (ho : o.kind = .openParen) (hs : s.kind = .string)
    (hc : c.kind = .closeParen) (hb : b.kind = .openBrace)
    (hname : Text.trim (Text.unquote s.text) ≠ "") (hus : Among StatementPart us statements) :
    BlockPart (k :: o :: s :: c :: b :: us) (⟨kind, Text.unquote s.text, statements, none⟩,
      ⟨k.start, ((b :: us).getLast (List.cons_ne_nil b us)).stop⟩)

/-- A block with its origin: where its first token starts and its last one ends. -/
def OriginPart (source : SourceId) (lines : LineStarts) (ts : List Token) (block : Block) : Prop :=
  ∃ b extent, BlockPart ts (b, extent) ∧
    block = { b with origin := some ⟨source, lines.span extent⟩ }

namespace Among

variable {α : Type} {L : List Token → α → Prop} {ts us : List Token} {as bs : List α}

private theorem one {a : α} (h : L ts a) (later : List Token) : Among L (ts ++ later) [a] := by
  have hone : Among L ([] ++ ts ++ later) [a] := .cons h (.nil later)
  rwa [List.nil_append] at hone

private theorem behind (h : Among L ts as) (gap : List Token) : Among L (gap ++ ts) as := by
  cases h with
  | nil => exact .nil _
  | @cons gap' ts us a as h hs =>
    have happend : gap ++ (gap' ++ ts ++ us) = gap ++ gap' ++ ts ++ us := by simp
    rw [happend]
    exact .cons h hs

private theorem append (hts : Among L ts as) (hus : Among L us bs) :
    Among L (ts ++ us) (as ++ bs) := by
  induction hts with
  | nil gap => exact hus.behind gap
  | @cons gap ts ts' a as h _ ih =>
    rw [List.append_assoc]
    exact .cons h ih

private theorem map {β : Type} {M : List Token → β → Prop} {f : α → β}
    (hf : ∀ ts a, L ts a → M ts (f a)) (h : Among L ts as) : Among M ts (as.map f) := by
  induction h with
  | nil gap => exact .nil gap
  | cons h _ ih => exact .cons (hf _ _ h) ih

end Among

end Grammar

open Grammar

/-- Whether what was read, from `ts` on, is said by parts of the tokens that were taken. -/
def Outcome.StandsIn {α β : Type} (L : List Token → β → Prop) (values : α → List β)
    (ts : List Token) (o : Outcome α) : Prop :=
  ∃ used, ts = used ++ o.rest ∧ Among L used (values o.value)

namespace Block

section

variable {α : Type} {L : List Token → α → Prop}

private theorem readItem_standsIn {complete : Call → List Token → Outcome (Option α)}
    (h : ∀ used call ts, IsCall used call → ∃ more, ts = more ++ (complete call ts).rest ∧
      Among L (used ++ more) (complete call ts).value.toList) (ts : List Token) :
    (readItem complete ts).StandsIn L Option.toList ts := by
  have hsuffix := Call.read_suffix ts
  unfold readItem
  split <;> rename_i hread <;> rw [hread] at hsuffix
  · rename_i call rest
    obtain ⟨used, rfl, hcall⟩ := Call.read_eq_ok_iff.mp hread
    obtain ⟨more, hmore, hamong⟩ := h used call rest hcall
    exact ⟨used ++ more, by rw [List.append_assoc, ← hmore], hamong⟩
  · obtain ⟨used, hused⟩ := (Token.skipStatement_suffix 0 _).trans hsuffix
    exact ⟨used, hused.symm, .nil used⟩

private theorem readBody_standsIn {item : List Token → Outcome (Option α)} {h : Advances item}
    (hitem : ∀ ts, (item ts).StandsIn L Option.toList ts) (ts : List Token) :
    (readBody item h ts).StandsIn L id ts := by
  fun_induction readBody item h ts with
  | case1 ts hon first later ih =>
    obtain ⟨used, hused, hfirst⟩ := hitem ts
    obtain ⟨more, hmore, hlater⟩ := ih
    refine ⟨used ++ more, ?_, hfirst.append hlater⟩
    rw [List.append_assoc, ← hmore]
    exact hused
  | case2 => exact ⟨[], rfl, .nil []⟩
  | case3 t ts => exact ⟨[t], rfl, .nil [t]⟩
  | case4 t ts => exact ⟨[], rfl, .nil []⟩

private theorem finish_standsIn {used : List Token} {statement : Except Fault α}
    (h : ∀ a, statement = .ok a → L used a) (ts : List Token) :
    ∃ more, ts = more ++ (finish statement ts).rest ∧
      Among L (used ++ more) (finish statement ts).value.toList := by
  obtain ⟨more, hmore⟩ := finish_suffix statement ts
  refine ⟨more, hmore.symm, ?_⟩
  cases statement with
  | error fault => exact .nil _
  | ok a => exact .one (h a rfl) more

end

private theorem readField_standsIn (ts : List Token) :
    (readField ts).StandsIn FieldPart Option.toList ts := by
  refine readItem_standsIn (fun used call ts hcall => finish_standsIn (fun s hs => ?_) ts) ts
  obtain ⟨hname, hargs⟩ := toFieldStatement_eq_ok_iff.mp hs
  have hone := hcall.oneText hargs
  rwa [hname] at hone

private theorem statementPart_of_toStatement {used : List Token} {call : Call} {s : Statement}
    (hcall : IsCall used call) (hs : call.toStatement = .ok s) : StatementPart used s := by
  rcases toStatement_eq_ok_iff.mp hs with ⟨make, text, hmake, hargs, rfl⟩ |
    ⟨key, value, hname, hargs, rfl⟩ | ⟨kind, name, hname, hargs, rfl⟩
  · simp only [textStatements, List.mem_cons, Prod.mk.injEq, List.not_mem_nil, or_false] at hmake
    rcases hmake with ⟨hname, rfl⟩ | ⟨hname, rfl⟩ | ⟨hname, rfl⟩ | ⟨hname, rfl⟩ | ⟨hname, rfl⟩ |
      ⟨hname, rfl⟩ <;> exact .call hcall hname hargs rfl
  · exact .call hcall hname hargs rfl
  · exact .call hcall hname hargs rfl

private theorem readAttribute_standsIn {used : List Token} {name : String}
    (hused : OneText "addAttribute" used name) (ts : List Token) :
    ∃ more, ts = more ++ (readAttribute name ts).rest ∧
      Among StatementPart (used ++ more) (readAttribute name ts).value.toList := by
  obtain ⟨call, hcall, hname, hargs⟩ := hused.exists_isCall
  have hplain : ∀ s, Except.ok (.addAttribute name []) = (.ok s : Except Fault Statement) →
      StatementPart used s := by
    rintro _ ⟨⟩
    exact .call hcall hname hargs rfl
  fun_cases readAttribute name ts with
  | case1 => exact finish_standsIn hplain []
  | case2 b rest hb body =>
    obtain ⟨us, hus, hbody⟩ := readBody_standsIn (h := readField_advances) readField_standsIn rest
    obtain ⟨es, hes, _⟩ := exists_dropSemicolon body.rest
    refine ⟨b :: us ++ es, ?_, ?_⟩
    · rw [List.append_assoc, ← hes, List.cons_append]
      exact congrArg (b :: ·) hus
    · rw [← List.append_assoc]
      exact .one (.attribute hused hb hbody) es
  | case3 t rest => exact finish_standsIn hplain (t :: rest)

private theorem readStatement_standsIn (ts : List Token) :
    (readStatement ts).StandsIn StatementPart Option.toList ts := by
  refine readItem_standsIn (fun used call ts hcall => ?_) ts
  unfold completeStatement
  split
  · rename_i hname
    split
    · rename_i name hattribute
      obtain ⟨hargs, _⟩ := attributeName?_eq_some_iff.mp hattribute
      have hone := hcall.oneText hargs
      rw [hname] at hone
      exact readAttribute_standsIn hone ts
    · obtain ⟨more, hmore⟩ := endStatement_suffix ts
      exact ⟨more, hmore.symm, .nil _⟩
  · exact finish_standsIn (fun s hs => statementPart_of_toStatement hcall hs) ts

private theorem readBlock_standsIn {k : Token} (hk : k.kind = .identifier) (ts : List Token) :
    ∃ used, ts = used ++ (readBlock k ts).rest ∧
      Among BlockPart (k :: used) (readBlock k ts).value.toList := by
  have hskipped {rest : List Token} (hrest : rest <:+ ts) :
      ∃ used, ts = used ++ rest ∧ Among BlockPart (k :: used) [] := by
    obtain ⟨used, hused⟩ := hrest
    exact ⟨used, hused.symm, .nil _⟩
  unfold readBlock
  split
  · exact hskipped (Token.skipGroup_suffix 0 ts)
  · rename_i kind hkind
    have hword := kindOfKeyword?_eq_some_iff.mp hkind
    have hheader := readHeader_suffix kind ts
    split <;> rename_i hread <;> rw [hread] at hheader
    · exact hskipped ((Token.skipGroup_suffix 0 _).trans hheader)
    · rename_i name rest
      obtain ⟨o, s, c, b, rfl, ho, hs, hc, hb, rfl, hname⟩ := readHeader_eq_ok_iff.mp hread
      obtain ⟨us, hus, hbody⟩ :=
        readBody_standsIn (h := readStatement_advances) readStatement_standsIn rest
      have htaken : k :: o :: s :: c :: b :: rest =
          k :: o :: s :: c :: b :: us ++
            (readBody readStatement readStatement_advances rest).rest :=
        congrArg (k :: o :: s :: c :: b :: ·) hus
      refine ⟨o :: s :: c :: b :: us, congrArg (o :: s :: c :: b :: ·) hus, ?_⟩
      simp only [htaken, extentBefore_append, Option.toList_some]
      have hlast : (k :: o :: s :: c :: b :: us).getLast? =
          some ((b :: us).getLast (List.cons_ne_nil b us)) := by
        simp [List.getLast?_eq_some_getLast]
      rw [hlast]
      have hblock := BlockPart.mk ⟨hk, hword⟩ ho hs hc hb hname hbody
      simpa using Among.one hblock []

theorem readAll_among (ts : List Token) : Among BlockPart ts (readAll ts).value := by
  fun_induction readAll ts with
  | case1 => exact .nil []
  | case2 t ts ht first later ih =>
    obtain ⟨used, hused, hfirst⟩ := readBlock_standsIn ht ts
    have hsplit : t :: ts = t :: used ++ first.rest := congrArg (t :: ·) hused
    rw [hsplit]
    exact hfirst.append ih
  | case3 t ts ht later ih => exact ih.behind [t]

end Block

/-- However broken the tokens are, the blocks of a document are said by parts of the tokens, in
order and apart from each other: each by its keyword, its header and, likewise, its statements. The
origin of a block is the span of its part. -/
theorem Document.blocks_among (source : SourceId) (lines : LineStarts) (size : Nat)
    (ts : List Token) :
    Among (OriginPart source lines) ts (ofTokens source lines size ts).blocks :=
  (Block.readAll_among ts).map fun _ (b, extent) h => ⟨b, extent, h, rfl⟩

end UiCatalog
