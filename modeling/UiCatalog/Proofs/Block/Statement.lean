import UiCatalog.Proofs.Block.Call
import UiCatalog.Proofs.Text.Blank
/-!
# Reading statements exactly

A reader of items is exact if it takes every sentence of its language without fault, whatever
follows, and if what it takes without fault is a sentence. Bodies of exact items are exact, and so
field statements, attributes and statements are.
-/

namespace UiCatalog

open Grammar

def Outcome.clean {α : Type} (a : α) (rest : List Token) : Outcome α :=
  ⟨a, [], rest⟩

namespace Block

/-- Whether a reader takes exactly the sentences of a language. What follows a sentence in a body
never starts with a semicolon, which could belong to the sentence. -/
structure ReadsExactly {α : Type} (item : List Token → Outcome (Option α))
    (L : List Token → α → Prop) : Prop where
  head : ∀ {ts a}, L ts a → ∃ t us, ts = t :: us ∧ t.kind = .identifier ∧
    Kind.ofKeyword? t.text = none
  complete : ∀ {ts a rest}, L ts a → (∀ t ∈ rest.head?, t.kind ≠ .semicolon) →
    item (ts ++ rest) = .clean (some a) rest
  sound : ∀ {ts}, (item ts).faults = [] → ∃ used a rest, ts = used ++ rest ∧ L used a ∧
    item ts = .clean (some a) rest

section

variable {α : Type} {item : List Token → Outcome (Option α)} {h : Advances item}
  {L : List Token → α → Prop}

theorem ReadsExactly.goesOn (hL : ReadsExactly item L) {ts : List Token} {a : α} (hts : L ts a)
    (rest : List Token) : goesOn (ts ++ rest) := by
  obtain ⟨t, us, rfl, hkind, hword⟩ := hL.head hts
  cases hus : us ++ rest <;>
    simp [Block.goesOn, Token.startsBlock, hus, hkind, hword]

theorem ReadsExactly.readBody_append (hL : ReadsExactly item L) {ts rest : List Token}
    {as : List α} (hts : Many L ts as) (hrest : ∀ t ∈ rest.head?, t.kind ≠ .semicolon) :
    readBody item h (ts ++ rest) =
      { readBody item h rest with value := as ++ (readBody item h rest).value } := by
  induction hts with
  | nil => rfl
  | @cons ts us a as hts hus ih =>
    have hfollow : ∀ t ∈ (us ++ rest).head?, t.kind ≠ .semicolon := by
      cases hus with
      | nil => exact hrest
      | cons hnext _ =>
        obtain ⟨t, vs, rfl, hkind, _⟩ := hL.head hnext
        simp [hkind]
    have hitem := hL.complete hts hfollow
    rw [List.append_assoc, readBody, dif_pos (hL.goesOn hts _)]
    simp only [hitem, Outcome.clean, ih, Option.toList_some, List.cons_append, List.nil_append]

theorem ReadsExactly.readBody_complete (hL : ReadsExactly item L) {ts rest : List Token}
    {as : List α} {d : Token} (hts : Many L ts as) (hd : d.kind = .closeBrace) :
    readBody item h (ts ++ d :: rest) = .clean as rest := by
  have hclosed : readBody item h (d :: rest) = .clean [] rest := by
    rw [readBody, dif_neg (by simp [Block.goesOn, hd])]
    simp only [hd, if_true]
    rfl
  rw [hL.readBody_append hts (by simp [hd]), hclosed]
  simp only [Outcome.clean, List.append_nil]

theorem ReadsExactly.readBody_sound (hL : ReadsExactly item L) {ts : List Token}
    (hfaults : (readBody item h ts).faults = []) :
    ∃ used as d rest, ts = used ++ d :: rest ∧ Many L used as ∧ d.kind = .closeBrace ∧
      readBody item h ts = .clean as rest := by
  fun_induction readBody item h ts with
  | case1 ts hon first later ih =>
    obtain ⟨hfirst, hlater⟩ := List.append_eq_nil_iff.mp hfaults
    obtain ⟨used, a, rest, rfl, ha, hclean⟩ := hL.sound hfirst
    have hrest : first.rest = rest := by simp only [first, hclean, Outcome.clean]
    obtain ⟨used', as, d, rest', hts, has, hd, hclean'⟩ := ih hlater
    refine ⟨used ++ used', a :: as, d, rest', ?_, .cons ha has, hd, ?_⟩
    · rw [← hrest, hts, List.append_assoc]
    · simp only [later, hclean', first, hclean, Outcome.clean, Option.toList_some,
        List.singleton_append, List.append_nil]
  | case2 => simp at hfaults
  | case3 d ts _ hd => exact ⟨[], [], d, ts, rfl, .nil, hd, rfl⟩
  | case4 => simp at hfaults

end

private theorem endStatement_sound {ts : List Token} (h : (endStatement ts).faults = []) :
    ∃ e rest, ts = e :: rest ∧ e.kind = .semicolon ∧ endStatement ts = .clean () rest := by
  unfold endStatement at h ⊢
  split at h
  · simp at h
  · rename_i e rest
    split at h
    · exact ⟨e, rest, rfl, ‹_›, by simp [*, Outcome.clean]⟩
    · simp at h
    · simp at h

private theorem finish_complete {α : Type} {a : α} {e : Token} {rest : List Token}
    (he : e.kind = .semicolon) : finish (.ok a) (e :: rest) = .clean (some a) rest := by
  simp [finish, endStatement, he, Outcome.clean]

private theorem finish_sound {α : Type} {statement : Except Fault α} {ts : List Token}
    (h : (finish statement ts).faults = []) :
    ∃ a e rest, statement = .ok a ∧ ts = e :: rest ∧ e.kind = .semicolon := by
  unfold finish at h
  split at h
  · obtain ⟨e, rest, rfl, he, _⟩ := endStatement_sound h
    exact ⟨_, e, rest, rfl, rfl, he⟩
  · simp at h

section

variable {α : Type} {complete : Call → List Token → Outcome (Option α)}

theorem readItem_of_isCall {used rest : List Token} {call : Call} (h : IsCall used call) :
    readItem complete (used ++ rest) = complete call rest := by
  rw [readItem, Call.read_eq_ok_iff.mpr ⟨used, rfl, h⟩]

private theorem readItem_sound {ts : List Token} (h : (readItem complete ts).faults = []) :
    ∃ used call rest, ts = used ++ rest ∧ IsCall used call ∧
      readItem complete ts = complete call rest := by
  unfold readItem at h
  split at h
  · rename_i call rest hread
    obtain ⟨used, rfl, hcall⟩ := Call.read_eq_ok_iff.mp hread
    exact ⟨used, call, rest, rfl, hcall, readItem_of_isCall hcall⟩
  · simp at h

end

private theorem oneString_eq_ok_iff {call : Call} {text : String} :
    call.oneString = .ok text ↔ call.arguments = [.text text] := by
  unfold Call.oneString
  split
  · rename_i heq
    simp [heq]
  · rename_i hne
    simpa using hne text

private theorem oneString_map_eq_ok_iff {β : Type} {call : Call} {make : String → β} {b : β} :
    call.oneString.map make = .ok b ↔ ∃ text, call.arguments = [.text text] ∧ make text = b := by
  simp only [← oneString_eq_ok_iff]
  cases call.oneString <;> simp [Except.map]

private theorem fieldOfKeyword?_eq_some_iff {word : String} {field : Field} :
    Field.ofKeyword? word = some field ↔ word = field.keyword := by
  constructor
  · intro h
    have hkeyword : field.keyword = word := by simpa using List.find?_some h
    exact hkeyword.symm
  · rintro rfl
    cases field <;> decide

theorem toFieldStatement_eq_ok_iff {call : Call} {s : FieldStatement} :
    call.toFieldStatement = .ok s ↔
      call.name = s.field.keyword ∧ call.arguments = [.text s.value] := by
  rw [← fieldOfKeyword?_eq_some_iff]
  unfold Call.toFieldStatement
  cases Field.ofKeyword? call.name with
  | none => simp
  | some field =>
    simp only [oneString_map_eq_ok_iff, Option.some.injEq]
    constructor
    · rintro ⟨text, htext, rfl⟩
      exact ⟨rfl, htext⟩
    · rintro ⟨rfl, htext⟩
      exact ⟨s.value, htext, rfl⟩

private theorem childKindOfKeyword?_eq_some_iff {word : String} {kind : ChildKind} :
    ChildKind.ofKeyword? word = some kind ↔ word = kind.keyword := by
  constructor
  · intro h
    have hkeyword : kind.keyword = word := by simpa using List.find?_some h
    exact hkeyword.symm
  · rintro rfl
    cases kind <;> decide

theorem toStatement_eq_ok_iff {call : Call} {s : Statement} :
    call.toStatement = .ok s ↔
      (∃ make text, (call.name, make) ∈ textStatements ∧ call.arguments = [.text text] ∧
        s = make text) ∨
      (∃ key value, call.name = "addProperty" ∧ call.arguments = [.text key, .text value] ∧
        s = .addProperty key value) ∨
      (∃ kind name, call.name = "addChild" ∧
        call.arguments = [.reference (ChildKind.keyword kind) name] ∧ s = .addChild kind name) := by
  constructor
  · intro h
    unfold Call.toStatement at h
    split at h
    iterate 6
      · rename_i hname
        obtain ⟨text, htext, rfl⟩ := oneString_map_eq_ok_iff.mp h
        exact Or.inl ⟨_, text, by simp [hname, textStatements], htext, rfl⟩
    · rename_i hname
      split at h
      · rename_i key value hargs
        exact Or.inr (Or.inl ⟨key, value, hname, hargs, (Except.ok.inj h).symm⟩)
      · simp at h
    · rename_i hname
      split at h
      · rename_i word name hargs
        split at h
        · rename_i kind hkind
          rw [childKindOfKeyword?_eq_some_iff.mp hkind] at hargs
          exact Or.inr (Or.inr ⟨kind, name, hname, hargs, (Except.ok.inj h).symm⟩)
        · simp at h
      · simp at h
    · simp at h
  · rintro (⟨make, text, hmake, hargs, rfl⟩ | ⟨key, value, hname, hargs, rfl⟩ |
      ⟨kind, name, hname, hargs, rfl⟩)
    · have hone := oneString_eq_ok_iff.mpr hargs
      simp only [textStatements, List.mem_cons, Prod.mk.injEq, List.not_mem_nil, or_false] at hmake
      rcases hmake with ⟨hname, rfl⟩ | ⟨hname, rfl⟩ | ⟨hname, rfl⟩ | ⟨hname, rfl⟩ | ⟨hname, rfl⟩ |
        ⟨hname, rfl⟩ <;> simp [Call.toStatement, hname, hone, Except.map]
    · simp [Call.toStatement, hname, hargs]
    · have hkind := childKindOfKeyword?_eq_some_iff.mpr (Eq.refl kind.keyword)
      simp [Call.toStatement, hname, hargs, hkind]

private theorem readField_exact : ReadsExactly readField IsField where
  head h := by
    obtain @⟨field, ts, text, e, hts, he⟩ := h
    obtain ⟨⟨hk, hword⟩, _, _, _⟩ := hts
    refine ⟨_, _, rfl, hk, ?_⟩
    rw [hword]
    cases field <;> decide
  complete h _ := by
    obtain @⟨field, ts, text, e, hts, he⟩ := h
    obtain ⟨call, hcall, hname, harguments⟩ := hts.exists_isCall
    have hstatement : call.toFieldStatement = .ok ⟨field, text⟩ :=
      toFieldStatement_eq_ok_iff.mpr ⟨hname, harguments⟩
    rw [List.append_assoc, readField, readItem_of_isCall hcall, hstatement]
    exact finish_complete he
  sound h := by
    obtain ⟨used, call, rest, rfl, hcall, hread⟩ := readItem_sound h
    have hfinish : (finish call.toFieldStatement rest).faults = [] := hread ▸ h
    obtain ⟨s, e, rest, hs, rfl, he⟩ := finish_sound hfinish
    obtain ⟨hname, harguments⟩ := toFieldStatement_eq_ok_iff.mp hs
    refine ⟨used ++ [e], s, rest, by simp, .set (hname ▸ hcall.oneText harguments) he, ?_⟩
    exact hread.trans (hs ▸ finish_complete he)

theorem attributeName?_eq_some_iff {call : Call} {name : String} :
    call.attributeName? = some name ↔ call.arguments = [.text name] ∧ Text.trim name ≠ "" := by
  have hblank (name : String) : ¬Text.isAllBlank name = true ↔ Text.trim name ≠ "" :=
    not_congr Text.isAllBlank_iff
  unfold Call.attributeName?
  split
  · rename_i name' hargs
    rw [hargs, Option.ite_none_left_eq_some, hblank]
    simp only [List.cons.injEq, Argument.text.injEq, and_true, Option.some.injEq]
    exact ⟨fun ⟨htrim, hname⟩ => ⟨hname, hname ▸ htrim⟩,
      fun ⟨hname, htrim⟩ => ⟨hname ▸ htrim, hname⟩⟩
  · rename_i hne
    simp only [reduceCtorEq, false_iff, not_and]
    exact fun hargs => absurd hargs (hne name)

private theorem readAttribute_sound {name : String} {ts : List Token}
    (h : (readAttribute name ts).faults = []) :
    (∃ e rest, ts = e :: rest ∧ e.kind = .semicolon) ∨
    ∃ b us d rest body, ts = b :: (us ++ d :: rest) ∧ b.kind = .openBrace ∧
      Many IsField us body ∧ d.kind = .closeBrace ∧
      readAttribute name ts =
        .clean (some (.addAttribute name body)) (Token.dropSemicolon rest) := by
  unfold readAttribute at h
  split at h
  · obtain ⟨_, _, _, _, hnil, _⟩ := finish_sound h
    simp at hnil
  · rename_i b rest
    split at h
    · rename_i hb
      obtain ⟨us, body, d, rest, rfl, hus, hd, hread⟩ := readField_exact.readBody_sound h
      refine Or.inr ⟨b, us, d, rest, body, rfl, hb, hus, hd, ?_⟩
      simp only [readAttribute, if_pos hb, hread, Outcome.clean]
    · obtain ⟨_, e, rest, _, hts, he⟩ := finish_sound h
      exact Or.inl ⟨e, rest, hts, he⟩

private theorem readAttribute_semicolon {name : String} {e : Token} {rest : List Token}
    (he : e.kind = .semicolon) :
    readAttribute name (e :: rest) = .clean (some (.addAttribute name [])) rest := by
  rw [readAttribute, if_neg (by simp [he])]
  exact finish_complete he

theorem readAttribute_body {name : String} {b d : Token} {us rest : List Token}
    {body : List FieldStatement} (hb : b.kind = .openBrace) (hus : Many IsField us body)
    (hd : d.kind = .closeBrace) :
    readAttribute name (b :: (us ++ d :: rest)) =
      .clean (some (.addAttribute name body)) (Token.dropSemicolon rest) := by
  rw [readAttribute, if_pos hb]
  simp only [readField_exact.readBody_complete hus hd, Outcome.clean]

private theorem name_ne_of_toStatement {call : Call} {s : Statement}
    (h : call.toStatement = .ok s) : call.name ≠ "addAttribute" := by
  intro hname
  simp [Call.toStatement, hname] at h

private theorem readStatement_plain {used rest : List Token} {call : Call} {s : Statement}
    {e : Token} (hcall : IsCall used call) (hs : call.toStatement = .ok s)
    (he : e.kind = .semicolon) : readStatement (used ++ e :: rest) = .clean (some s) rest := by
  rw [readStatement, readItem_of_isCall hcall, completeStatement,
    if_neg (name_ne_of_toStatement hs), hs]
  exact finish_complete he

private theorem readStatement_attribute {used rest : List Token} {name : String}
    (hts : OneText "addAttribute" used name) (hname : Text.trim name ≠ "") :
    readStatement (used ++ rest) = readAttribute name rest := by
  obtain ⟨call, hcall, hword, hargs⟩ := hts.exists_isCall
  have hattribute := attributeName?_eq_some_iff.mpr ⟨hargs, hname⟩
  rw [readStatement, readItem_of_isCall hcall, completeStatement, if_pos hword]
  simp only [hattribute]

private theorem completeStatement_sound {call : Call} {rest : List Token}
    (h : (completeStatement call rest).faults = []) :
    (∃ s e later, call.toStatement = .ok s ∧ rest = e :: later ∧ e.kind = .semicolon) ∨
    ∃ name, call.name = "addAttribute" ∧ call.arguments = [.text name] ∧ Text.trim name ≠ "" ∧
      (readAttribute name rest).faults = [] := by
  unfold completeStatement at h
  split at h
  · rename_i hword
    split at h
    · rename_i name hattribute
      obtain ⟨hargs, hname⟩ := attributeName?_eq_some_iff.mp hattribute
      exact Or.inr ⟨name, hword, hargs, hname, h⟩
    · simp at h
  · obtain ⟨s, e, later, hs, hrest, he⟩ := finish_sound h
    exact Or.inl ⟨s, e, later, hs, hrest, he⟩

private theorem isStatement_of_toStatement {used : List Token} {call : Call} {s : Statement}
    {e : Token} (hcall : IsCall used call) (hs : call.toStatement = .ok s)
    (he : e.kind = .semicolon) : IsStatement (used ++ [e]) s := by
  rcases toStatement_eq_ok_iff.mp hs with ⟨make, text, hmake, hargs, rfl⟩ |
    ⟨key, value, hword, hargs, rfl⟩ | ⟨kind, name, hword, hargs, rfl⟩
  · exact .text hmake (hcall.oneText hargs) he
  · obtain ⟨k, o, s, m, t, c, rfl, hk, ho, hs', hm, ht, hc, rfl, rfl⟩ := hcall.twoTexts hargs
    exact .property (hword ▸ hk) ho hs' hm ht hc he
  · obtain ⟨k, o, us, c, rfl, hk, ho, hus, hc⟩ := hcall.oneReference hargs
    have happend : k :: o :: us ++ [c] ++ [e] = k :: o :: us ++ [c, e] := by simp
    rw [happend]
    exact .child (hword ▸ hk) ho hus hc he

private theorem dropSemicolon_eq_self {ts : List Token} (h : ∀ t ∈ ts.head?, t.kind ≠ .semicolon) :
    Token.dropSemicolon ts = ts := by
  cases ts with
  | nil => rfl
  | cons t ts => exact if_neg (h t rfl)

theorem exists_dropSemicolon (ts : List Token) : ∃ es, ts = es ++ Token.dropSemicolon ts ∧
    (es = [] ∨ ∃ e : Token, e.kind = .semicolon ∧ es = [e]) := by
  fun_cases Token.dropSemicolon ts with
  | case1 => exact ⟨[], rfl, Or.inl rfl⟩
  | case2 e ts he => exact ⟨[e], rfl, Or.inr ⟨e, he, rfl⟩⟩
  | case3 t ts _ => exact ⟨[], rfl, Or.inl rfl⟩

theorem kindOfKeyword?_textStatements {word : String} {make : String → Statement}
    (h : (word, make) ∈ textStatements) : Kind.ofKeyword? word = none := by
  simp only [textStatements, List.mem_cons, Prod.mk.injEq, List.not_mem_nil, or_false] at h
  rcases h with ⟨rfl, _⟩ | ⟨rfl, _⟩ | ⟨rfl, _⟩ | ⟨rfl, _⟩ | ⟨rfl, _⟩ | ⟨rfl, _⟩ <;> decide

private theorem isStatement_head {ts : List Token} {s : Statement} (h : IsStatement ts s) :
    ∃ t us, ts = t :: us ∧ t.kind = .identifier ∧ Kind.ofKeyword? t.text = none := by
  have hone {word text : String} {ts us : List Token} (hts : OneText word ts text)
      (hword : Kind.ofKeyword? word = none) :
      ∃ t vs, ts ++ us = t :: vs ∧ t.kind = .identifier ∧ Kind.ofKeyword? t.text = none := by
    obtain ⟨⟨hk, rfl⟩, _, _, _⟩ := hts
    exact ⟨_, _, rfl, hk, hword⟩
  cases h with
  | text hmake hts _ => exact hone hts (kindOfKeyword?_textStatements hmake)
  | property hk => exact ⟨_, _, rfl, hk.1, by rw [hk.2]; decide⟩
  | child hk => exact ⟨_, _, rfl, hk.1, by rw [hk.2]; decide⟩
  | plainAttribute hts => exact hone hts (by decide)
  | bodiedAttribute hts => exact hone hts (by decide)

/-- A statement is read whatever follows; only after a body a semicolon that follows belongs to it.
-/
theorem readStatement_append {ts : List Token} {s : Statement} (h : IsStatement ts s) :
    (∀ rest, readStatement (ts ++ rest) = .clean (some s) rest) ∨
      ∀ rest, readStatement (ts ++ rest) = .clean (some s) (Token.dropSemicolon rest) := by
  cases h with
  | text hmake hts he =>
    refine Or.inl fun rest => ?_
    obtain ⟨call, hcall, hname, hargs⟩ := hts.exists_isCall
    rw [List.append_assoc]
    exact readStatement_plain hcall
      (toStatement_eq_ok_iff.mpr (Or.inl ⟨_, _, hname ▸ hmake, hargs, rfl⟩)) he
  | property hk ho hs hm ht hc he =>
    refine Or.inl fun rest => ?_
    have hcall := IsCall.mk hk.1 ho (.cons (.text hs) hm (.one (.text ht))) hc
    exact readStatement_plain hcall
      (toStatement_eq_ok_iff.mpr (Or.inr (Or.inl ⟨_, _, hk.2, rfl, rfl⟩))) he
  | child hk ho hts hc he =>
    refine Or.inl fun rest => ?_
    have hcall := IsCall.mk hk.1 ho (.one (.reference hts)) hc
    have happend {k o c e : Token} {ts rest : List Token} :
        k :: o :: ts ++ [c, e] ++ rest = k :: o :: (ts ++ [c]) ++ e :: rest := by simp
    rw [happend]
    exact readStatement_plain hcall
      (toStatement_eq_ok_iff.mpr (Or.inr (Or.inr ⟨_, _, hk.2, rfl, rfl⟩))) he
  | plainAttribute hts hname he =>
    refine Or.inl fun rest => ?_
    rw [List.append_assoc, readStatement_attribute hts hname]
    exact readAttribute_semicolon he
  | @bodiedAttribute ts us es name b d body hts hname hb hus hd hes =>
    have hbody (rest : List Token) : readStatement (ts ++ b :: (us ++ d :: es) ++ rest) =
        .clean (some (.addAttribute name body)) (Token.dropSemicolon (es ++ rest)) := by
      rw [List.append_assoc, readStatement_attribute hts hname, List.cons_append,
        List.append_assoc, List.cons_append, readAttribute_body hb hus hd]
    rcases hes with rfl | ⟨e, he, rfl⟩
    · exact Or.inr hbody
    · exact Or.inl fun rest => (hbody rest).trans (congrArg (Outcome.clean _) (if_pos he))

private theorem readStatement_complete {ts rest : List Token} {s : Statement} (h : IsStatement ts s)
    (hrest : ∀ t ∈ rest.head?, t.kind ≠ .semicolon) :
    readStatement (ts ++ rest) = .clean (some s) rest := by
  rcases readStatement_append h with hread | hread
  · exact hread rest
  · exact (hread rest).trans (congrArg (Outcome.clean _) (dropSemicolon_eq_self hrest))

private theorem readStatement_sound {ts : List Token} (h : (readStatement ts).faults = []) :
    ∃ used s rest, ts = used ++ rest ∧ IsStatement used s ∧
      readStatement ts = .clean (some s) rest := by
  obtain ⟨used, call, rest, rfl, hcall, hread⟩ := readItem_sound h
  have hcomplete : (completeStatement call rest).faults = [] := hread ▸ h
  rcases completeStatement_sound hcomplete with ⟨s, e, later, hs, rfl, he⟩ |
    ⟨name, hword, hargs, hname, hattribute⟩
  · exact ⟨used ++ [e], s, later, by simp, isStatement_of_toStatement hcall hs he,
      readStatement_plain hcall hs he⟩
  · have hts : OneText "addAttribute" used name := hword ▸ hcall.oneText hargs
    rcases readAttribute_sound hattribute with ⟨e, later, rfl, he⟩ |
      ⟨b, us, d, later, body, rfl, hb, hus, hd, hclean⟩
    · refine ⟨used ++ [e], _, later, by simp, .plainAttribute hts hname he, ?_⟩
      rw [readStatement_attribute hts hname]
      exact readAttribute_semicolon he
    · obtain ⟨es, hlater, hes⟩ := exists_dropSemicolon later
      refine ⟨used ++ b :: (us ++ d :: es), _, Token.dropSemicolon later, ?_,
        .bodiedAttribute hts hname hb hus hd hes, ?_⟩
      · simp [← hlater]
      · rw [readStatement_attribute hts hname, hclean]

theorem readStatement_exact : ReadsExactly readStatement IsStatement :=
  ⟨isStatement_head, readStatement_complete, readStatement_sound⟩

end Block

end UiCatalog
