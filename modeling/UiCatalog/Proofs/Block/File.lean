import UiCatalog.Proofs.Block.Statement
/-!
# Reading files exactly

Tokens are read without fault if and only if they are a sequence of blocks, and then these blocks
are what is read.
-/

namespace UiCatalog.Block

open Grammar

theorem kindOfKeyword?_eq_some_iff {word : String} {kind : Kind} :
    Kind.ofKeyword? word = some kind ↔ word = kind.keyword := by
  constructor
  · intro h
    have hkeyword : kind.keyword = word := by simpa using List.find?_some h
    exact hkeyword.symm
  · rintro rfl
    cases kind <;> decide

theorem readHeader_eq_ok_iff {kind : Kind} {ts rest : List Token} {name : String} :
    readHeader kind ts = ⟨.ok name, rest⟩ ↔ ∃ o s c b, ts = o :: s :: c :: b :: rest ∧
      o.kind = .openParen ∧ s.kind = .string ∧ c.kind = .closeParen ∧ b.kind = .openBrace ∧
      name = Text.unquote s.text ∧ Text.trim name ≠ "" := by
  simp only [readHeader, Read.andThen_eq_ok_iff, Call.expect_eq_ok_iff]
  constructor
  · rintro ⟨o, _, ⟨rfl, ho⟩, s, _, ⟨rfl, hs⟩, c, _, ⟨rfl, hc⟩, hname⟩
    split at hname
    · simp at hname
    · rename_i hblank
      obtain ⟨b, us, hopen, hread⟩ := Read.andThen_eq_ok_iff.mp hname
      obtain ⟨rfl, hb⟩ := Call.expect_eq_ok_iff.mp hopen
      obtain ⟨hok, rfl⟩ := Read.mk.inj hread
      obtain rfl := Except.ok.inj hok
      exact ⟨o, s, c, b, rfl, ho, hs, hc, hb, rfl, mt Text.isAllBlank_iff.mpr hblank⟩
  · rintro ⟨o, s, c, b, rfl, ho, hs, hc, hb, rfl, htrim⟩
    refine ⟨o, _, ⟨rfl, ho⟩, s, _, ⟨rfl, hs⟩, c, _, ⟨rfl, hc⟩, ?_⟩
    rw [if_neg (mt Text.isAllBlank_iff.mp htrim)]
    exact Read.andThen_eq_ok_iff.mpr ⟨b, _, Call.expect_eq_ok_iff.mpr ⟨rfl, hb⟩, rfl⟩

theorem extentBefore_append (used rest : List Token) :
    extentBefore (used ++ rest) rest =
      ⟨(used.head?.map Token.start).getD 0, (used.getLast?.map Token.stop).getD 0⟩ := by
  have htaken : (used ++ rest).take ((used ++ rest).length - rest.length) = used := by simp
  rw [extentBefore, htaken]

private theorem readBlock_body {kind : Kind} {k o s c b d : Token} {us rest : List Token}
    {statements : List Statement} (hk : k.text = kind.keyword) (ho : o.kind = .openParen)
    (hs : s.kind = .string) (hc : c.kind = .closeParen)
    (hname : Text.trim (Text.unquote s.text) ≠ "") (hb : b.kind = .openBrace)
    (hus : Many IsStatement us statements) (hd : d.kind = .closeBrace) :
    readBlock k (o :: s :: c :: b :: (us ++ d :: rest)) =
      .clean (some (⟨kind, Text.unquote s.text, statements, none⟩, ⟨k.start, d.stop⟩)) rest := by
  have hkind := kindOfKeyword?_eq_some_iff.mpr hk
  have hheader : readHeader kind (o :: s :: c :: b :: (us ++ d :: rest)) =
      ⟨.ok (Text.unquote s.text), us ++ d :: rest⟩ :=
    readHeader_eq_ok_iff.mpr ⟨o, s, c, b, rfl, ho, hs, hc, hb, rfl, hname⟩
  have hbody : readBody readStatement readStatement_advances (us ++ d :: rest) =
      .clean statements rest := readStatement_exact.readBody_complete hus hd
  have happend : k :: o :: s :: c :: b :: (us ++ d :: rest) =
      (k :: o :: s :: c :: b :: (us ++ [d])) ++ rest := by simp
  have hlast : (k :: o :: s :: c :: b :: (us ++ [d])).getLast? = some d :=
    List.getLast?_concat (l := k :: o :: s :: c :: b :: us)
  have hextent := extentBefore_append (k :: o :: s :: c :: b :: (us ++ [d])) rest
  rw [← happend, hlast] at hextent
  simp only [readBlock, hkind, hheader, hbody, Outcome.clean, hextent, List.head?_cons,
    Option.map_some, Option.getD_some]

private theorem readBlock_sound {k : Token} {ts : List Token} (hk : k.kind = .identifier)
    (h : (readBlock k ts).faults = []) :
    ∃ us block rest, ts = us ++ rest ∧ IsBlock (k :: us) block ∧
      readBlock k ts = .clean (some block) rest := by
  unfold readBlock at h
  split at h
  · simp at h
  · rename_i kind hkind
    have hword := kindOfKeyword?_eq_some_iff.mp hkind
    split at h
    · simp at h
    · rename_i name rest hheader
      obtain ⟨o, s, c, b, rfl, ho, hs, hc, hb, rfl, hname⟩ := readHeader_eq_ok_iff.mp hheader
      obtain ⟨us, statements, d, rest, rfl, hus, hd, _⟩ := readStatement_exact.readBody_sound h
      exact ⟨o :: s :: c :: b :: (us ++ [d]), _, rest, by simp,
        .mk ⟨hk, hword⟩ ho hs hc hname hb hus hd, readBlock_body hword ho hs hc hname hb hus hd⟩

/-- After a file tokens are read as if they began there. -/
theorem readAll_append {ts : List Token} {blocks : List (Block × Extent)} (h : IsFile ts blocks)
    (rest : List Token) :
    readAll (ts ++ rest) = { readAll rest with value := blocks ++ (readAll rest).value } := by
  induction h with
  | nil => rfl
  | @cons ts us block blocks hblock _ ih =>
    obtain @⟨kind, k, o, s, c, b, d, vs, statements, hk, ho, hs, hc, hname, hb, hvs, hd⟩ := hblock
    have happend : k :: o :: s :: c :: b :: (vs ++ [d]) ++ us ++ rest =
        k :: o :: s :: c :: b :: (vs ++ d :: (us ++ rest)) := by simp
    rw [happend, readAll, if_pos hk.1]
    simp only [readBlock_body hk.2 ho hs hc hname hb hvs hd, Outcome.clean, ih, Option.toList_some,
      List.cons_append, List.nil_append]

theorem readAll_complete {ts : List Token} {blocks : List (Block × Extent)}
    (h : IsFile ts blocks) : readAll ts = .clean blocks [] := by
  have hnil : readAll [] = .clean [] [] := by
    rw [readAll]
    rfl
  have happend := readAll_append h []
  rw [List.append_nil, hnil] at happend
  simpa only [Outcome.clean, List.append_nil] using happend

theorem readAll_sound {ts : List Token} (h : (readAll ts).faults = []) :
    ∃ blocks, IsFile ts blocks := by
  fun_induction readAll ts with
  | case1 => exact ⟨[], .nil⟩
  | case2 t ts ht first later ih =>
    obtain ⟨hfirst, hlater⟩ := List.append_eq_nil_iff.mp h
    obtain ⟨us, block, rest, rfl, hblock, hread⟩ := readBlock_sound ht hfirst
    have hrest : first.rest = rest := by simp only [first, hread, Outcome.clean]
    obtain ⟨blocks, hfile⟩ := ih hlater
    rw [hrest] at hfile
    exact ⟨block :: blocks, .cons hblock hfile⟩
  | case3 => simp at h

end UiCatalog.Block
