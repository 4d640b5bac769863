import UiCatalog.Proofs.Block.Provenance
/-!
# Where blocks and faults stand

The range of a block goes from the start of a token to the end of a later one. So does the range of
a fault, or it is that of one token; the other faults are those at the end of the tokens.
-/

namespace UiCatalog

open Grammar

/-- The range of a token, or from the start of one token to the end of a later one. -/
inductive TokenRange (ts : List Token) : Extent → Prop where
  | token {t : Token} (mem : t ∈ ts) : TokenRange ts t.extent
  | run {t u : Token} (order : [t, u].Sublist ts) : TokenRange ts ⟨t.start, u.stop⟩

private theorem TokenRange.mono {ts us : List Token} {e : Extent} (h : TokenRange ts e)
    (hsub : ts.Sublist us) : TokenRange us e := by
  cases h with
  | token mem => exact .token (hsub.mem mem)
  | run order => exact .run (order.trans hsub)

private theorem Grammar.IsCall.tokenRange {ts : List Token} {call : Call} (h : IsCall ts call) :
    TokenRange ts call.extent := by
  cases h with
  | @empty k o c => exact .run (.cons_cons k (.cons o (List.Sublist.refl [c])))
  | @mk k o c ts _ _ _ _ _ =>
    exact .run (.cons_cons k (.cons o (List.sublist_append_right ts [c])))

/-! ## Faults -/

/-- Whether a fault is at the end of the tokens or concerns a range of them. -/
inductive Fault.IsPlaced (ts : List Token) : Fault → Prop where
  | atEnd (wanted : Wanted) : IsPlaced ts (.unexpectedEnd wanted)
  | range {f : Fault} (h : ∀ size, TokenRange ts (f.extent size)) : IsPlaced ts f

namespace Fault.IsPlaced

variable {ts us : List Token} {f : Fault}

private theorem mono (h : f.IsPlaced ts) (hsub : ts.Sublist us) : f.IsPlaced us := by
  cases h with
  | atEnd wanted => exact .atEnd wanted
  | range h => exact .range fun size => (h size).mono hsub

private theorem unexpected {t : Token} (ht : t ∈ ts) (wanted : Wanted) :
    (Fault.unexpected wanted t).IsPlaced ts :=
  .range fun _ => .token ht

end Fault.IsPlaced

/-- Whether the fault that stopped the reading, if one did, is placed in the tokens. -/
def Read.IsPlaced {α : Type} (ts : List Token) (r : Read α) : Prop :=
  ∀ f, r.result = .error f → f.IsPlaced ts

def Outcome.IsPlaced {α : Type} (ts : List Token) (o : Outcome α) : Prop :=
  ∀ f ∈ o.faults, f.IsPlaced ts

private theorem Outcome.IsPlaced.mono {α : Type} {ts us : List Token} {o : Outcome α}
    (h : o.IsPlaced ts) (hsub : ts.Sublist us) : o.IsPlaced us :=
  fun f hf => (h f hf).mono hsub

namespace Read

variable {α β : Type} {ts : List Token} {r : Read α}

private theorem isPlaced_ok (a : α) (rest : List Token) : (Read.mk (.ok a) rest).IsPlaced ts := by
  intro f hf
  cases hf

private theorem isPlaced_error {f : Fault} (hf : f.IsPlaced ts) (rest : List Token) :
    (Read.mk (.error f : Except Fault α) rest).IsPlaced ts := by
  rintro _ ⟨⟩
  exact hf

private theorem IsPlaced.mono {us : List Token} (h : r.IsPlaced ts) (hsub : ts.Sublist us) :
    r.IsPlaced us :=
  fun f hf => (h f hf).mono hsub

private theorem IsPlaced.map (h : r.IsPlaced ts) (f : α → β) : (r.map f).IsPlaced ts := by
  intro fault hfault
  obtain ⟨result, rest⟩ := r
  cases result with
  | error _ =>
    cases hfault
    exact h fault rfl
  | ok _ => cases hfault

private theorem IsPlaced.andThen {next : α → List Token → Read β} (h : r.IsPlaced ts)
    (hsuffix : r.rest <:+ ts) (hnext : ∀ a us, us <:+ ts → (next a us).IsPlaced ts) :
    (r.andThen next).IsPlaced ts := by
  intro f hf
  unfold Read.andThen at hf
  split at hf
  · exact hnext _ _ hsuffix f hf
  · rename_i fault hresult
    cases hf
    exact h _ hresult

end Read

namespace Call

private theorem expect_isPlaced (kind : TokenKind) (wanted : Wanted) (ts : List Token) :
    (expect kind wanted ts).IsPlaced ts := by
  fun_cases expect kind wanted ts with
  | case1 => exact Read.isPlaced_error (.atEnd wanted) []
  | case2 t ts => exact Read.isPlaced_ok t ts
  | case3 t ts => exact Read.isPlaced_error (.unexpected List.mem_cons_self wanted) _

private theorem expect_andThen_isPlaced {β : Type} {next : Token → List Token → Read β}
    (hnext : ∀ t us, (next t us).IsPlaced (t :: us)) (kind : TokenKind) (wanted : Wanted)
    (ts : List Token) : ((expect kind wanted ts).andThen next).IsPlaced ts := by
  fun_cases expect kind wanted ts with
  | case1 => exact Read.isPlaced_error (.atEnd wanted) []
  | case2 t ts => exact hnext t ts
  | case3 t ts => exact Read.isPlaced_error (.unexpected List.mem_cons_self wanted) _

private theorem expect_then_isPlaced {β : Type} {next : Token → List Token → Read β}
    (hnext : ∀ t us, (next t us).IsPlaced us) (kind : TokenKind) (wanted : Wanted)
    (ts : List Token) : ((expect kind wanted ts).andThen next).IsPlaced ts :=
  expect_andThen_isPlaced (fun t us => (hnext t us).mono (List.sublist_cons_self t us)) kind wanted
    ts

private theorem readReference_isPlaced (keyword : String) (ts : List Token) :
    (readReference keyword ts).IsPlaced ts := by
  refine expect_then_isPlaced (fun _ ts => ?_) _ _ ts
  refine expect_then_isPlaced (fun _ ts => ?_) _ _ ts
  exact expect_then_isPlaced (fun _ ts => Read.isPlaced_ok _ ts) _ _ ts

private theorem readArgument_isPlaced (ts : List Token) : (readArgument ts).IsPlaced ts := by
  fun_cases readArgument ts with
  | case1 => exact Read.isPlaced_error (.atEnd _) []
  | case2 t ts => exact Read.isPlaced_ok _ ts
  | case3 t ts =>
    exact (readReference_isPlaced t.text ts).mono (List.sublist_cons_self t ts)
  | case4 t ts => exact Read.isPlaced_error (.unexpected List.mem_cons_self _) _

private theorem readArguments_isPlaced (ts : List Token) : (readArguments ts).IsPlaced ts := by
  fun_induction readArguments ts with
  | case1 ts fault rest hread =>
    refine Read.isPlaced_error (readArgument_isPlaced ts fault ?_) rest
    rw [hread]
  | case2 ts => exact Read.isPlaced_ok _ _
  | case3 ts argument t rest hread ht ih =>
    have hsuffix := readArgument_suffix ts
    rw [hread] at hsuffix
    have hrest : rest.Sublist ts := ((List.suffix_cons t rest).trans hsuffix).sublist
    exact (ih.map (argument :: ·)).mono hrest
  | case4 ts => exact Read.isPlaced_ok _ _

private theorem readArgumentList_isPlaced (ts : List Token) :
    (readArgumentList ts).IsPlaced ts := by
  fun_cases readArgumentList ts with
  | case1 => exact readArguments_isPlaced []
  | case2 t ts => exact Read.isPlaced_ok _ _
  | case3 t ts => exact readArguments_isPlaced (t :: ts)

private theorem read_isPlaced (ts : List Token) : (read ts).IsPlaced ts := by
  refine expect_then_isPlaced (fun name ts => ?_) _ _ ts
  refine expect_then_isPlaced (fun _ ts => ?_) _ _ ts
  refine (readArgumentList_isPlaced ts).andThen (readArgumentList_suffix ts) fun _ us hus => ?_
  exact (expect_then_isPlaced (fun _ us => Read.isPlaced_ok _ us) _ _ us).mono hus.sublist

/-- What a call is blamed for concerns the whole call. -/
def Blames (call : Call) (f : Fault) : Prop :=
  f = .unknownStatement call.name call.extent ∨ ∃ rule, f = call.wrongArguments rule

variable {call : Call} {f : Fault}

private theorem Blames.isPlaced {ts : List Token} (h : call.Blames f) (hcall : IsCall ts call) :
    f.IsPlaced ts := by
  rcases h with rfl | ⟨rule, rfl⟩
  · exact .range fun _ => hcall.tokenRange
  · exact .range fun _ => hcall.tokenRange

private theorem oneString_map_blames {α : Type} {make : String → α}
    (h : call.oneString.map make = .error f) : call.Blames f := by
  unfold oneString at h
  split at h
  · cases h
  · cases h
    exact .inr ⟨_, rfl⟩

private theorem toStatement_blames (h : call.toStatement = .error f) : call.Blames f := by
  unfold toStatement at h
  split at h
  · exact oneString_map_blames h
  · exact oneString_map_blames h
  · exact oneString_map_blames h
  · exact oneString_map_blames h
  · exact oneString_map_blames h
  · exact oneString_map_blames h
  · split at h
    · cases h
    · cases h
      exact .inr ⟨_, rfl⟩
  · split at h
    · split at h
      · cases h
      · cases h
        exact .inr ⟨_, rfl⟩
    · cases h
      exact .inr ⟨_, rfl⟩
  · cases h
    exact .inl rfl

private theorem toFieldStatement_blames (h : call.toFieldStatement = .error f) : call.Blames f := by
  unfold toFieldStatement at h
  split at h
  · exact oneString_map_blames h
  · cases h
    exact .inl rfl

end Call

namespace Block

private theorem endStatement_isPlaced (ts : List Token) : (endStatement ts).IsPlaced ts := by
  fun_cases endStatement ts with
  | case1 => simpa [Outcome.IsPlaced] using Fault.IsPlaced.atEnd _
  | case2 t ts => simp [Outcome.IsPlaced]
  | case3 t ts => simpa [Outcome.IsPlaced] using Fault.IsPlaced.unexpected List.mem_cons_self _
  | case4 t ts => simpa [Outcome.IsPlaced] using Fault.IsPlaced.unexpected List.mem_cons_self _

private theorem finish_isPlaced {α : Type} {used : List Token} {call : Call}
    {statement : Except Fault α} (hcall : IsCall used call)
    (h : ∀ f, statement = .error f → call.Blames f) (ts : List Token) :
    (finish statement ts).IsPlaced (used ++ ts) := by
  have hstop : ∀ f ∈ (endStatement ts).faults, f.IsPlaced (used ++ ts) := fun f hf =>
    (endStatement_isPlaced ts f hf).mono (List.sublist_append_right used ts)
  cases statement with
  | ok value => exact hstop
  | error fault =>
    refine List.forall_mem_append.mpr ⟨hstop, List.forall_mem_singleton.mpr ?_⟩
    exact ((h fault rfl).isPlaced hcall).mono (List.sublist_append_left used ts)

private theorem readItem_isPlaced {α : Type} {complete : Call → List Token → Outcome (Option α)}
    (h : ∀ used call ts, IsCall used call → (complete call ts).IsPlaced (used ++ ts))
    (ts : List Token) : (readItem complete ts).IsPlaced ts := by
  have hread := Call.read_isPlaced ts
  unfold readItem
  split <;> rename_i heq
  · rename_i call rest
    obtain ⟨used, rfl, hcall⟩ := Call.read_eq_ok_iff.mp heq
    exact h used call rest hcall
  · rename_i fault rest
    rw [heq] at hread
    exact List.forall_mem_singleton.mpr (hread fault rfl)

private theorem readBody_isPlaced {α : Type} {item : List Token → Outcome (Option α)}
    {h : Advances item} (hitem : ∀ ts, (item ts).IsPlaced ts)
    (hsuffix : ∀ ts, (item ts).rest <:+ ts) (ts : List Token) :
    (readBody item h ts).IsPlaced ts := by
  fun_induction readBody item h ts with
  | case1 ts hon first later ih =>
    refine List.forall_mem_append.mpr ⟨hitem ts, fun f hf => ?_⟩
    exact (ih f hf).mono (hsuffix ts).sublist
  | case2 => exact List.forall_mem_singleton.mpr (.atEnd _)
  | case3 => exact List.forall_mem_nil _
  | case4 t ts => exact List.forall_mem_singleton.mpr (.unexpected List.mem_cons_self _)

private theorem readField_isPlaced (ts : List Token) : (readField ts).IsPlaced ts :=
  readItem_isPlaced (fun _ _ ts hcall =>
    finish_isPlaced hcall (fun _ => Call.toFieldStatement_blames) ts) ts

private theorem readAttribute_isPlaced {used : List Token} {call : Call} (hcall : IsCall used call)
    (name : String) (ts : List Token) : (readAttribute name ts).IsPlaced (used ++ ts) := by
  have hplain (f : Fault)
      (h : (.ok (.addAttribute name []) : Except Fault Statement) = .error f) : call.Blames f := by
    cases h
  fun_cases readAttribute name ts with
  | case1 => exact finish_isPlaced hcall hplain []
  | case2 b rest hb body =>
    have hbody : body.IsPlaced rest := readBody_isPlaced readField_isPlaced
      (readItem_suffix fun _ _ => finish_suffix _ _) rest
    refine hbody.mono ?_
    exact (List.sublist_cons_self b rest).trans (List.sublist_append_right used (b :: rest))
  | case3 t rest => exact finish_isPlaced hcall hplain (t :: rest)

private theorem completeStatement_isPlaced {used : List Token} {call : Call}
    (hcall : IsCall used call) (ts : List Token) :
    (completeStatement call ts).IsPlaced (used ++ ts) := by
  unfold completeStatement
  split
  · split
    · exact readAttribute_isPlaced hcall _ ts
    · have hblamed : call.Blames (call.wrongArguments .attributeName) := .inr ⟨_, rfl⟩
      refine List.forall_mem_cons.mpr ⟨?_, ?_⟩
      · exact (hblamed.isPlaced hcall).mono (List.sublist_append_left used ts)
      · exact (endStatement_isPlaced ts).mono (List.sublist_append_right used ts)
  · exact finish_isPlaced hcall (fun _ => Call.toStatement_blames) ts

private theorem readStatement_isPlaced (ts : List Token) : (readStatement ts).IsPlaced ts :=
  readItem_isPlaced (fun _ _ ts hcall => completeStatement_isPlaced hcall ts) ts

private theorem readHeader_isPlaced (kind : Kind) (ts : List Token) :
    (readHeader kind ts).IsPlaced ts := by
  refine Call.expect_then_isPlaced (fun _ ts => ?_) _ _ ts
  refine Call.expect_andThen_isPlaced (fun literal ts => ?_) _ _ ts
  have hsuffix := List.suffix_cons literal ts
  refine ((Call.expect_isPlaced _ _ ts).mono hsuffix.sublist).andThen
    ((Call.expect_suffix _ _ ts).trans hsuffix) fun _ us hus => ?_
  dsimp only
  split
  · exact Read.isPlaced_error (.range fun _ => .token List.mem_cons_self) us
  · exact (Call.expect_then_isPlaced (fun _ us => Read.isPlaced_ok _ us) _ _ us).mono hus.sublist

private theorem readBlock_isPlaced (keyword : Token) (ts : List Token) :
    (readBlock keyword ts).IsPlaced (keyword :: ts) := by
  unfold readBlock
  split
  · exact List.forall_mem_singleton.mpr (.range fun _ => .token List.mem_cons_self)
  · rename_i kind _
    have hsuffix := readHeader_suffix kind ts
    have hheader := readHeader_isPlaced kind ts
    split <;> rename_i heq <;> rw [heq] at hsuffix hheader
    · have hfault := (hheader _ rfl).mono (List.sublist_cons_self keyword ts)
      exact List.forall_mem_singleton.mpr hfault
    · rename_i name rest
      have hbody := readBody_isPlaced (h := readStatement_advances) readStatement_isPlaced
        (readItem_suffix completeStatement_suffix) rest
      exact hbody.mono (hsuffix.sublist.trans (List.sublist_cons_self keyword ts))

/-- All faults in a file are at its end or concern ranges of its tokens. -/
theorem readAll_isPlaced (ts : List Token) : (readAll ts).IsPlaced ts := by
  fun_induction readAll ts with
  | case1 => exact List.forall_mem_nil _
  | case2 t ts ht first later ih =>
    refine List.forall_mem_append.mpr ⟨readBlock_isPlaced t ts, ?_⟩
    have hrest := (readBlock_suffix t ts).sublist.trans (List.sublist_cons_self t ts)
    exact ih.mono hrest
  | case3 t ts ht later ih =>
    refine List.forall_mem_cons.mpr ⟨.unexpected List.mem_cons_self _, ?_⟩
    exact ih.mono (List.sublist_cons_self t ts)

end Block

/-! ## Blocks -/

private theorem Grammar.Among.exists_part {α : Type} {L : List Token → α → Prop} {ts : List Token}
    {as : List α} {a : α} (h : Among L ts as) (ha : a ∈ as) : ∃ us, us.Sublist ts ∧ L us a := by
  induction h with
  | nil => cases ha
  | @cons gap ts us a as h _ ih =>
    rcases List.mem_cons.mp ha with rfl | hlater
    · exact ⟨ts, (List.sublist_append_right gap ts).trans (List.sublist_append_left _ us), h⟩
    · obtain ⟨vs, hsub, hvs⟩ := ih hlater
      exact ⟨vs, hsub.trans (List.sublist_append_right _ us), hvs⟩

private theorem Grammar.BlockPart.tokenRange {ts : List Token} {block : Block × Extent}
    (h : BlockPart ts block) : TokenRange ts block.2 := by
  obtain @⟨_, k, o, s, c, b, us, _⟩ := h
  have hsuffix : b :: us <:+ o :: s :: c :: b :: us := ⟨[o, s, c], rfl⟩
  have hlast := hsuffix.mem (List.getLast_mem (List.cons_ne_nil b us))
  exact .run ((List.singleton_sublist.mpr hlast).cons_cons k)

theorem Block.readAll_tokenRange {ts : List Token} {block : Block × Extent}
    (h : block ∈ (readAll ts).value) : TokenRange ts block.2 := by
  obtain ⟨us, hsub, hus⟩ := (readAll_among ts).exists_part h
  exact hus.tokenRange.mono hsub

end UiCatalog
