import UiCatalog.Proofs.Block.Grammar
/-!
# Reading calls exactly

A call is read from the front of the tokens if and only if one stands there: a word and, in
parentheses, arguments with commas between them.
-/

namespace UiCatalog

namespace Read

theorem andThen_eq_ok_iff {α β : Type} {r : Read α} {next : α → List Token → Read β} {b : β}
    {rest : List Token} :
    r.andThen next = ⟨.ok b, rest⟩ ↔ ∃ a us, r = ⟨.ok a, us⟩ ∧ next a us = ⟨.ok b, rest⟩ := by
  obtain ⟨result, us⟩ := r
  cases result with
  | error fault => simp [andThen]
  | ok a =>
    constructor
    · exact fun h => ⟨a, us, rfl, h⟩
    · rintro ⟨_, _, hr, h⟩
      obtain ⟨ha, rfl⟩ := Read.mk.inj hr
      obtain rfl := Except.ok.inj ha
      exact h

private theorem map_eq_ok_iff {α β : Type} {f : α → β} {r : Read α} {b : β} {rest : List Token} :
    r.map f = ⟨.ok b, rest⟩ ↔ ∃ a, r = ⟨.ok a, rest⟩ ∧ f a = b := by
  obtain ⟨result, us⟩ := r
  cases result with
  | error fault => simp [map, Except.map]
  | ok a =>
    simp only [map, Except.map, mk.injEq, Except.ok.injEq]
    exact ⟨fun ⟨hb, hus⟩ => ⟨a, ⟨rfl, hus⟩, hb⟩, fun ⟨_, ⟨ha, hus⟩, hb⟩ => ⟨ha ▸ hb, hus⟩⟩

end Read

namespace Grammar

inductive IsArgument : List Token → Argument → Prop where
  | text {s : Token} (hs : s.kind = .string) : IsArgument [s] (.text (Text.unquote s.text))
  | reference {word : String} {ts : List Token} {name : String} (hts : OneText word ts name) :
    IsArgument ts (.reference word name)

inductive AreArguments : List Token → List Argument → Prop where
  | one {ts : List Token} {a : Argument} (h : IsArgument ts a) : AreArguments ts [a]
  | cons {ts us : List Token} {m : Token} {a : Argument} {as : List Argument}
    (h : IsArgument ts a) (hm : m.kind = .comma) (hs : AreArguments us as) :
    AreArguments (ts ++ m :: us) (a :: as)

inductive IsCall : List Token → Call → Prop where
  | empty {k o c : Token} (hk : k.kind = .identifier) (ho : o.kind = .openParen)
    (hc : c.kind = .closeParen) : IsCall [k, o, c] ⟨k.text, [], ⟨k.start, c.stop⟩⟩
  | mk {k o c : Token} {ts : List Token} {as : List Argument} (hk : k.kind = .identifier)
    (ho : o.kind = .openParen) (has : AreArguments ts as) (hc : c.kind = .closeParen) :
    IsCall (k :: o :: (ts ++ [c])) ⟨k.text, as, ⟨k.start, c.stop⟩⟩

theorem OneText.exists_isCall {word text : String} {ts : List Token} (h : OneText word ts text) :
    ∃ call, IsCall ts call ∧ call.name = word ∧ call.arguments = [.text text] := by
  obtain ⟨⟨hk, rfl⟩, ho, hs, hc⟩ := h
  exact ⟨_, .mk hk ho (.one (.text hs)) hc, rfl, rfl⟩

theorem IsCall.oneText {call : Call} {text : String} {ts : List Token} (h : IsCall ts call)
    (harguments : call.arguments = [.text text]) : OneText call.name ts text := by
  cases h with
  | empty => simp at harguments
  | mk hk ho has hc =>
    cases has with
    | one harg =>
      cases harg with
      | text hs =>
        obtain rfl : Text.unquote _ = text := by simpa using harguments
        exact .mk ⟨hk, rfl⟩ ho hs hc
      | reference => simp at harguments
    | cons _ _ hmore => cases hmore <;> simp at harguments

theorem IsCall.twoTexts {call : Call} {key value : String} {ts : List Token} (h : IsCall ts call)
    (harguments : call.arguments = [.text key, .text value]) :
    ∃ k o s m t c : Token, ts = [k, o, s, m, t, c] ∧ IsWord call.name k ∧ o.kind = .openParen ∧
      s.kind = .string ∧ m.kind = .comma ∧ t.kind = .string ∧ c.kind = .closeParen ∧
      key = Text.unquote s.text ∧ value = Text.unquote t.text := by
  cases h with
  | empty => simp at harguments
  | @mk k o c _ _ hk ho has hc =>
    cases has with
    | one _ => simp at harguments
    | @cons _ _ m _ _ harg hm hmore =>
      cases hmore with
      | one harg' =>
        cases harg <;> cases harg' <;> simp at harguments
        rename_i s hs t ht
        exact ⟨k, o, s, m, t, c, rfl, ⟨hk, rfl⟩, ho, hs, hm, ht, hc, harguments.1.symm,
          harguments.2.symm⟩
      | cons _ _ hmost => cases hmost <;> simp at harguments

theorem IsCall.oneReference {call : Call} {word name : String} {ts : List Token}
    (h : IsCall ts call) (harguments : call.arguments = [.reference word name]) :
    ∃ k o us c, ts = k :: o :: us ++ [c] ∧ IsWord call.name k ∧ o.kind = .openParen ∧
      OneText word us name ∧ c.kind = .closeParen := by
  cases h with
  | empty => simp at harguments
  | @mk k o c us _ hk ho has hc =>
    cases has with
    | one harg =>
      cases harg with
      | text => simp at harguments
      | reference hts =>
        obtain ⟨rfl, rfl⟩ : _ = word ∧ _ = name := by simpa using harguments
        exact ⟨k, o, us, c, rfl, ⟨hk, rfl⟩, ho, hts, hc⟩
    | cons _ _ hmore => cases hmore <;> simp at harguments

end Grammar

namespace Call

open Grammar

theorem expect_eq_ok_iff {kind : TokenKind} {wanted : Wanted} {ts rest : List Token} {t : Token} :
    expect kind wanted ts = ⟨.ok t, rest⟩ ↔ ts = t :: rest ∧ t.kind = kind := by
  cases ts with
  | nil => simp [expect]
  | cons u us =>
    by_cases hu : u.kind = kind
    · simp only [expect, if_pos hu, Read.mk.injEq, Except.ok.injEq, List.cons.injEq]
      exact ⟨fun h => ⟨h, h.1 ▸ hu⟩, And.left⟩
    · simp only [expect, if_neg hu, Read.mk.injEq, reduceCtorEq, false_and, List.cons.injEq,
        false_iff, not_and]
      exact fun h ht => hu (h.1 ▸ ht)

private theorem readReference_eq_ok_iff {word : String} {ts rest : List Token} {a : Argument} :
    readReference word ts = ⟨.ok a, rest⟩ ↔ ∃ o s c, ts = o :: s :: c :: rest ∧
      o.kind = .openParen ∧ s.kind = .string ∧ c.kind = .closeParen ∧
      a = .reference word (Text.unquote s.text) := by
  simp only [readReference, Read.andThen_eq_ok_iff, expect_eq_ok_iff, Read.mk.injEq,
    Except.ok.injEq]
  constructor
  · rintro ⟨o, _, ⟨rfl, ho⟩, s, _, ⟨rfl, hs⟩, c, _, ⟨rfl, hc⟩, rfl, rfl⟩
    exact ⟨o, s, c, rfl, ho, hs, hc, rfl⟩
  · rintro ⟨o, s, c, rfl, ho, hs, hc, rfl⟩
    exact ⟨o, _, ⟨rfl, ho⟩, s, _, ⟨rfl, hs⟩, c, _, ⟨rfl, hc⟩, rfl, rfl⟩

private theorem readArgument_eq_ok_iff {ts rest : List Token} {a : Argument} :
    readArgument ts = ⟨.ok a, rest⟩ ↔ ∃ used, ts = used ++ rest ∧ IsArgument used a := by
  constructor
  · intro h
    unfold readArgument at h
    split at h
    · simp at h
    · rename_i t ts
      split at h
      · rename_i hkind
        obtain ⟨ha, rfl⟩ := Read.mk.inj h
        obtain rfl := Except.ok.inj ha
        exact ⟨[t], rfl, .text hkind⟩
      · rename_i hkind
        obtain ⟨o, s, c, rfl, ho, hs, hc, rfl⟩ := readReference_eq_ok_iff.mp h
        exact ⟨[t, o, s, c], rfl, .reference (.mk ⟨hkind, rfl⟩ ho hs hc)⟩
      · simp at h
  · rintro ⟨used, rfl, harg⟩
    cases harg with
    | text hs => simp [readArgument, hs]
    | reference hts =>
      obtain ⟨⟨hk, rfl⟩, ho, hs, hc⟩ := hts
      simp only [readArgument, hk, List.cons_append, List.nil_append]
      exact readReference_eq_ok_iff.mpr ⟨_, _, _, rfl, ho, hs, hc, rfl⟩

theorem readArguments_eq (ts : List Token) :
    readArguments ts = (readArgument ts).andThen fun argument rest =>
      match rest with
      | [] => ⟨.ok [argument], []⟩
      | t :: rest =>
        if t.kind = .comma then (readArguments rest).map (argument :: ·)
        else ⟨.ok [argument], t :: rest⟩ := by
  rw [readArguments]
  split <;> rename_i heq <;> rw [heq] <;> rfl

private theorem areArguments_of_readArguments {ts rest : List Token} {as : List Argument}
    (h : readArguments ts = ⟨.ok as, rest⟩) :
    ∃ used, ts = used ++ rest ∧ AreArguments used as := by
  fun_induction readArguments ts generalizing as with
  | case1 => simp at h
  | case2 ts a hread =>
    obtain ⟨used, hts, harg⟩ := readArgument_eq_ok_iff.mp hread
    obtain ⟨has, rfl⟩ := Read.mk.inj h
    obtain rfl := Except.ok.inj has
    exact ⟨used, hts, .one harg⟩
  | case3 ts a m later hread hm =>
    rename_i ih
    obtain ⟨used, rfl, harg⟩ := readArgument_eq_ok_iff.mp hread
    obtain ⟨as, hlater, rfl⟩ := Read.map_eq_ok_iff.mp h
    obtain ⟨used', rfl, has⟩ := ih hlater
    exact ⟨used ++ m :: used', by simp, .cons harg hm has⟩
  | case4 ts a t later hread ht =>
    obtain ⟨used, hts, harg⟩ := readArgument_eq_ok_iff.mp hread
    obtain ⟨has, rfl⟩ := Read.mk.inj h
    obtain rfl := Except.ok.inj has
    exact ⟨used, hts, .one harg⟩

private theorem readArguments_of_areArguments {used rest : List Token} {as : List Argument}
    (h : AreArguments used as) (hrest : ∀ t ∈ rest.head?, t.kind ≠ .comma) :
    readArguments (used ++ rest) = ⟨.ok as, rest⟩ := by
  induction h with
  | @one ts a harg =>
    have hread : readArgument (ts ++ rest) = ⟨.ok a, rest⟩ :=
      readArgument_eq_ok_iff.mpr ⟨ts, rfl, harg⟩
    unfold readArguments
    split
    · rename_i heq
      simp [heq] at hread
    · rename_i heq
      simp_all
    · rename_i heq
      rw [heq] at hread
      obtain ⟨ha, rfl⟩ := Read.mk.inj hread
      rw [if_neg (hrest _ rfl), Except.ok.inj ha]
  | @cons ts us m a as harg hm _ ih =>
    have hread : readArgument (ts ++ m :: (us ++ rest)) = ⟨.ok a, m :: (us ++ rest)⟩ :=
      readArgument_eq_ok_iff.mpr ⟨ts, rfl, harg⟩
    have happend : ts ++ m :: us ++ rest = ts ++ m :: (us ++ rest) := by simp
    rw [happend]
    unfold readArguments
    split
    · rename_i heq
      simp [heq] at hread
    · rename_i heq
      simp [heq] at hread
    · rename_i heq
      rw [heq] at hread
      obtain ⟨ha, htail⟩ := Read.mk.inj hread
      obtain ⟨rfl, rfl⟩ := List.cons.inj htail
      rw [if_pos hm, ih]
      exact Read.map_eq_ok_iff.mpr ⟨as, rfl, by rw [Except.ok.inj ha]⟩

private theorem head_of_areArguments {ts : List Token} {as : List Argument}
    (h : AreArguments ts as) : ∃ t us, ts = t :: us ∧ t.kind ≠ .closeParen := by
  have hargument {ts : List Token} {a : Argument} (h : IsArgument ts a) :
      ∃ t us, ts = t :: us ∧ t.kind ≠ .closeParen := by
    cases h with
    | text hs => exact ⟨_, _, rfl, by simp [hs]⟩
    | reference hts =>
      obtain ⟨⟨hk, _⟩, _, _, _⟩ := hts
      exact ⟨_, _, rfl, by simp [hk]⟩
  cases h with
  | one h => exact hargument h
  | cons h _ _ =>
    obtain ⟨t, us, rfl, ht⟩ := hargument h
    exact ⟨t, _, rfl, ht⟩

private theorem readArgumentList_eq_ok_iff {ts rest : List Token} {c : Token} {as : List Argument}
    (hc : c.kind = .closeParen) : readArgumentList ts = ⟨.ok as, c :: rest⟩ ↔
      ∃ used, ts = used ++ c :: rest ∧ (used = [] ∧ as = [] ∨ AreArguments used as) := by
  constructor
  · intro h
    unfold readArgumentList at h
    split at h
    · obtain ⟨used, hts, has⟩ := areArguments_of_readArguments h
      exact ⟨used, hts, Or.inr has⟩
    · split at h
      · obtain ⟨has, hts⟩ := Read.mk.inj h
        exact ⟨[], hts, Or.inl ⟨rfl, (Except.ok.inj has).symm⟩⟩
      · obtain ⟨used, hts, has⟩ := areArguments_of_readArguments h
        exact ⟨used, hts, Or.inr has⟩
  · rintro ⟨used, rfl, ⟨rfl, rfl⟩ | has⟩
    · rw [List.nil_append, readArgumentList, if_pos hc]
    · have hread : readArguments (used ++ c :: rest) = ⟨.ok as, c :: rest⟩ :=
        readArguments_of_areArguments has (by simp [hc])
      obtain ⟨t, us, rfl, ht⟩ := head_of_areArguments has
      rw [List.cons_append, readArgumentList, if_neg ht]
      exact hread

/-- A call is read if and only if one stands at the front. -/
theorem read_eq_ok_iff {ts rest : List Token} {call : Call} :
    read ts = ⟨.ok call, rest⟩ ↔ ∃ used, ts = used ++ rest ∧ IsCall used call := by
  simp only [read, readAfter, Read.andThen_eq_ok_iff, expect_eq_ok_iff, Read.mk.injEq,
    Except.ok.injEq]
  constructor
  · rintro ⟨k, _, ⟨rfl, hk⟩, o, _, ⟨rfl, ho⟩, as, us, hlist, c, _, ⟨rfl, hc⟩, rfl, rfl⟩
    obtain ⟨used, rfl, ⟨rfl, rfl⟩ | has⟩ := (readArgumentList_eq_ok_iff hc).mp hlist
    · exact ⟨[k, o, c], rfl, .empty hk ho hc⟩
    · exact ⟨k :: o :: (used ++ [c]), by simp, .mk hk ho has hc⟩
  · rintro ⟨used, rfl, hcall⟩
    cases hcall with
    | @empty k o c hk ho hc =>
      exact ⟨k, _, ⟨rfl, hk⟩, o, _, ⟨rfl, ho⟩, [], _,
        (readArgumentList_eq_ok_iff hc).mpr ⟨[], rfl, Or.inl ⟨rfl, rfl⟩⟩, c, _, ⟨rfl, hc⟩, rfl, rfl⟩
    | @mk k o c args as hk ho has hc =>
      refine ⟨k, _, ⟨rfl, hk⟩, o, _, ⟨rfl, ho⟩, as, _,
        (readArgumentList_eq_ok_iff hc).mpr ⟨args, ?_, Or.inr has⟩, c, _, ⟨rfl, hc⟩, rfl, rfl⟩
      simp

end Call

end UiCatalog
