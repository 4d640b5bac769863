import UiCatalog.Block.Reading
/-!
# The grammar of definition files

Which sequences of tokens are blocks, statements and field statements, and what they say. Nothing
is said here about how they are read, or about any other sequence.
-/

namespace UiCatalog.Grammar

/-- Sequences of sentences one after the other. -/
inductive Many {α : Type} (L : List Token → α → Prop) : List Token → List α → Prop where
  | nil : Many L [] []
  | cons {ts us : List Token} {a : α} {as : List α} (h : L ts a) (hs : Many L us as) :
    Many L (ts ++ us) (a :: as)

def IsWord (word : String) (t : Token) : Prop :=
  t.kind = .identifier ∧ t.text = word

/-- A word and one literal in parentheses, with what the literal stands for. -/
inductive OneText (word : String) : List Token → String → Prop where
  | mk {k o s c : Token} (hk : IsWord word k) (ho : o.kind = .openParen) (hs : s.kind = .string)
    (hc : c.kind = .closeParen) : OneText word [k, o, s, c] (Text.unquote s.text)

def textStatements : List (String × (String → Statement)) :=
  [("setUUID", .setUuid), ("setParentType", .setParent), ("addIcon", .addIcon),
    ("addTargetTable", .addTargetTable), ("addTargetForm", .addTargetForm),
    ("addTargetMenu", .addTargetMenu)]

inductive IsField : List Token → FieldStatement → Prop where
  | set {field : Field} {ts : List Token} {text : String} {e : Token}
    (hts : OneText field.keyword ts text) (he : e.kind = .semicolon) :
    IsField (ts ++ [e]) ⟨field, text⟩

inductive IsStatement : List Token → Statement → Prop where
  | text {word : String} {make : String → Statement} {ts : List Token} {text : String} {e : Token}
    (hmake : (word, make) ∈ textStatements) (hts : OneText word ts text)
    (he : e.kind = .semicolon) : IsStatement (ts ++ [e]) (make text)
  | property {k o s m t c e : Token} (hk : IsWord "addProperty" k) (ho : o.kind = .openParen)
    (hs : s.kind = .string) (hm : m.kind = .comma) (ht : t.kind = .string)
    (hc : c.kind = .closeParen) (he : e.kind = .semicolon) :
    IsStatement [k, o, s, m, t, c, e] (.addProperty (Text.unquote s.text) (Text.unquote t.text))
  | child {kind : ChildKind} {k o c e : Token} {ts : List Token} {name : String}
    (hk : IsWord "addChild" k) (ho : o.kind = .openParen) (hts : OneText kind.keyword ts name)
    (hc : c.kind = .closeParen) (he : e.kind = .semicolon) :
    IsStatement (k :: o :: ts ++ [c, e]) (.addChild kind name)
  | plainAttribute {ts : List Token} {name : String} {e : Token}
    (hts : OneText "addAttribute" ts name) (hname : Text.trim name ≠ "")
    (he : e.kind = .semicolon) : IsStatement (ts ++ [e]) (.addAttribute name [])
  | bodiedAttribute {ts us es : List Token} {name : String} {b d : Token}
    {body : List FieldStatement} (hts : OneText "addAttribute" ts name)
    (hname : Text.trim name ≠ "") (hb : b.kind = .openBrace) (hus : Many IsField us body)
    (hd : d.kind = .closeBrace) (hes : es = [] ∨ ∃ e : Token, e.kind = .semicolon ∧ es = [e]) :
    IsStatement (ts ++ b :: (us ++ d :: es)) (.addAttribute name body)

/-- A block, with its range from the start of its keyword to the end of its closing brace. -/
inductive IsBlock : List Token → Block × Extent → Prop where
  | mk {kind : Kind} {k o s c b d : Token} {us : List Token} {statements : List Statement}
    (hk : IsWord kind.keyword k) (ho : o.kind = .openParen) (hs : s.kind = .string)
    (hc : c.kind = .closeParen) (hname : Text.trim (Text.unquote s.text) ≠ "")
    (hb : b.kind = .openBrace) (hus : Many IsStatement us statements)
    (hd : d.kind = .closeBrace) :
    IsBlock (k :: o :: s :: c :: b :: (us ++ [d]))
      (⟨kind, Text.unquote s.text, statements, none⟩, ⟨k.start, d.stop⟩)

/-- A definition file is a sequence of blocks. -/
def IsFile : List Token → List (Block × Extent) → Prop :=
  Many IsBlock

def AllValid (ts : List Token) : Prop :=
  ∀ t ∈ ts, t.kind ≠ .invalid

@[simp]
theorem allValid_nil : AllValid [] := by
  simp [AllValid]

@[simp]
theorem allValid_cons {t : Token} {ts : List Token} :
    AllValid (t :: ts) ↔ t.kind ≠ .invalid ∧ AllValid ts :=
  List.forall_mem_cons

@[simp]
theorem allValid_append {ts us : List Token} :
    AllValid (ts ++ us) ↔ AllValid ts ∧ AllValid us :=
  List.forall_mem_append

private theorem Many.valid {α : Type} {L : List Token → α → Prop} {ts : List Token} {as : List α}
    (hL : ∀ us a, L us a → AllValid us) (h : Many L ts as) : AllValid ts := by
  induction h with
  | nil => exact allValid_nil
  | cons h _ ih => exact allValid_append.mpr ⟨hL _ _ h, ih⟩

private theorem OneText.valid {word text : String} {ts : List Token} (h : OneText word ts text) :
    AllValid ts := by
  obtain ⟨hk, ho, hs, hc⟩ := h
  simp [hk.1, ho, hs, hc]

private theorem IsField.valid {ts : List Token} {field : FieldStatement} (h : IsField ts field) :
    AllValid ts := by
  obtain ⟨hts, he⟩ := h
  simp [hts.valid, he]

private theorem IsStatement.valid {ts : List Token} {s : Statement} (h : IsStatement ts s) :
    AllValid ts := by
  cases h with
  | text _ hts he => simp [hts.valid, he]
  | property hk ho hs hm ht hc he => simp [hk.1, ho, hs, hm, ht, hc, he]
  | child hk ho hts hc he => simp [hk.1, ho, hts.valid, hc, he]
  | plainAttribute hts _ he => simp [hts.valid, he]
  | bodiedAttribute hts _ hb hus hd hes =>
    have hbody := hus.valid fun _ _ hfield => hfield.valid
    rcases hes with rfl | ⟨e, he, rfl⟩
    · simp [hts.valid, hb, hbody, hd]
    · simp [hts.valid, hb, hbody, hd, he]

private theorem IsBlock.valid {ts : List Token} {block : Block × Extent} (h : IsBlock ts block) :
    AllValid ts := by
  obtain ⟨hk, ho, hs, hc, _, hb, hus, hd⟩ := h
  have hbody := hus.valid fun _ _ hstatement => hstatement.valid
  simp [hk.1, ho, hs, hc, hb, hbody, hd]

theorem IsFile.valid {ts : List Token} {blocks : List (Block × Extent)} (h : IsFile ts blocks) :
    AllValid ts :=
  Many.valid (fun _ _ hblock => hblock.valid) h

theorem IsFile.exists_extent {ts : List Token} {blocks : List (Block × Extent)}
    (h : IsFile ts blocks) {block : Block} {extent : Extent} (hblock : (block, extent) ∈ blocks) :
    ∃ k ∈ ts, ∃ d ∈ ts, extent = ⟨k.start, d.stop⟩ := by
  induction h with
  | nil => simp at hblock
  | @cons ts us first _ hfirst _ ih =>
    rcases List.mem_cons.mp hblock with rfl | hlater
    · obtain @⟨_, k, _, _, _, _, d, us, _⟩ := hfirst
      exact ⟨k, by simp, d, by simp, rfl⟩
    · obtain ⟨k, hk, d, hd, heq⟩ := ih hlater
      exact ⟨k, List.mem_append_right _ hk, d, List.mem_append_right _ hd, heq⟩

end UiCatalog.Grammar
