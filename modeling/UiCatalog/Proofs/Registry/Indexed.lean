import UiCatalog.Proofs.Registry.Lookup
import UiCatalog.Registry.Indexed
/-!
# Indexes of a registry

Whatever is offered to a registry, and in whatever order, its indexes of names and UUIDs tell
exactly the definitions that it holds. A definition that is kept out leaves no trace.
-/

namespace UiCatalog

private theorem Registry.get?_concat {r : Registry} {d e : Definition} {h : Handle} :
    (Registry.mk (r.definitions ++ [d])).get? h = some e ↔
      r.get? h = some e ∨ h = r.size ∧ d = e := by
  rcases Nat.lt_trichotomy h r.definitions.length with hlt | heq | hgt
  · rw [get?, List.getElem?_append_left hlt, ← get?]
    simp [size, Nat.ne_of_lt hlt]
  · simp [get?, size, heq]
  · have hlast : (r.definitions ++ [d]).length ≤ h := by
      rw [List.length_append, List.length_singleton]
      omega
    rw [get?, get?, List.getElem?_eq_none hlast, List.getElem?_eq_none hgt.le]
    simp [size, Nat.ne_of_gt hgt]

/-- Whether an index tells for each key the one handle whose definition has the key. -/
def Indexes {α : Type} [BEq α] (key : Definition → Option α) (index : List (α × Handle))
    (r : Registry) : Prop :=
  ∀ k h, index.lookup k = some h ↔ ∃ d, r.get? h = some d ∧ key d = some k

namespace Indexes

variable {α : Type} [BEq α] [LawfulBEq α] {key : Definition → Option α}
  {index : List (α × Handle)} {r : Registry} {d : Definition}

omit [LawfulBEq α] in
private theorem injective (hr : Indexes key index r) {h h' : Handle} {d d' : Definition} {k : α}
    (hd : r.get? h = some d) (hd' : r.get? h' = some d') (hk : key d = some k)
    (hk' : key d' = some k) : h = h' :=
  Option.some.inj (((hr k h).mpr ⟨d, hd, hk⟩).symm.trans ((hr k h').mpr ⟨d', hd', hk'⟩))

omit [LawfulBEq α] in
private theorem exists_of_lookup (hr : Indexes key index r) {k : α} {h : Handle}
    (hlookup : index.lookup k = some h) : ∃ d, r.get? h = some d ∧ key d = some k :=
  (hr k h).mp hlookup

omit [LawfulBEq α] in
private theorem lookup_eq_none_iff (hr : Indexes key index r) {k : α} :
    index.lookup k = none ↔ ∀ e ∈ r.definitions, key e ≠ some k := by
  rw [Option.eq_none_iff_forall_ne_some]
  constructor
  · intro hnone e he hk
    obtain ⟨h, hh⟩ := List.getElem?_of_mem he
    exact hnone h ((hr k h).mpr ⟨e, hh, hk⟩)
  · intro hfree h hlookup
    obtain ⟨e, he, hk⟩ := hr.exists_of_lookup hlookup
    exact hfree e (List.mem_of_getElem? he) hk

private theorem push (hr : Indexes key index r) {k : α} (hk : key d = some k)
    (hfree : ∀ e ∈ r.definitions, key e ≠ some k) :
    Indexes key ((k, r.size) :: index) ⟨r.definitions ++ [d]⟩ := by
  intro k' h
  have hsplit : (∃ e, (Registry.mk (r.definitions ++ [d])).get? h = some e ∧ key e = some k') ↔
      (∃ e, r.get? h = some e ∧ key e = some k') ∨ h = r.size ∧ k = k' := by
    simp only [Registry.get?_concat, or_and_right, exists_or]
    simp [hk]
  rw [List.lookup_cons, hsplit, ← hr k' h]
  cases hsame : k' == k with
  | false =>
    have hne : k ≠ k' := (ne_of_beq_false hsame).symm
    simp [hne]
  | true =>
    obtain rfl := eq_of_beq hsame
    simp [hr.lookup_eq_none_iff.mpr hfree, eq_comm]

omit [LawfulBEq α] in
private theorem skip (hr : Indexes key index r) (hk : key d = none) :
    Indexes key index ⟨r.definitions ++ [d]⟩ := by
  intro k h
  rw [hr k h]
  simp only [Registry.get?_concat, or_and_right, exists_or]
  simp [hk]

end Indexes

namespace OpenRegistry

/-- Whether both indexes of a registry tell its definitions. -/
structure IsIndexed (r : OpenRegistry) : Prop where
  names : Indexes (fun d => some d.name) r.byName r.toRegistry
  uuids : Indexes Definition.uuid r.byUuid r.toRegistry

/-- What comes of offering a definition. -/
inductive Outcome (r : OpenRegistry) (d : Definition) :
    OpenRegistry → Except Problem Handle → Prop where
  /-- Name and UUID are new. -/
  | registered (name : ∀ e ∈ r.definitions, e.name ≠ d.name)
      (uuid : ∀ e ∈ r.definitions, ∀ u, d.uuid = some u → e.uuid ≠ some u) :
      Outcome r d (r.insert d) (.ok r.size)
  /-- An earlier definition has the name. -/
  | nameTaken {h : Handle} {owner : Definition} (owned : r.get? h = some owner)
      (same : owner.name = d.name) :
      Outcome r d r (.error ⟨d.name, .duplicateName owner.kind⟩)
  /-- The name is new, but an earlier definition has the UUID. -/
  | uuidTaken {h : Handle} {owner : Definition} {uuid : Uuid}
      (name : ∀ e ∈ r.definitions, e.name ≠ d.name) (owned : r.get? h = some owner)
      (declared : d.uuid = some uuid) (same : owner.uuid = some uuid) :
      Outcome r d r (.error ⟨d.name, .duplicateUuid uuid owner.name⟩)

variable {r : OpenRegistry} {d : Definition}

private theorem owner?_eq_some_iff {α : Type} [BEq α] {key : Definition → Option α}
    {index : List (α × Handle)} (hindex : Indexes key index r.toRegistry) {k : α} :
    r.owner? index k = some d ↔ ∃ h, r.get? h = some d ∧ key d = some k := by
  rw [owner?, Option.bind_eq_some_iff]
  constructor
  · rintro ⟨h, hlookup, hd⟩
    obtain ⟨e, he, hk⟩ := hindex.exists_of_lookup hlookup
    cases hd.symm.trans he
    exact ⟨h, hd, hk⟩
  · rintro ⟨h, hd, hk⟩
    exact ⟨h, (hindex k h).mpr ⟨d, hd, hk⟩, hd⟩

private theorem owner?_eq_none_iff {α : Type} [BEq α] {key : Definition → Option α}
    {index : List (α × Handle)} (hindex : Indexes key index r.toRegistry) {k : α} :
    r.owner? index k = none ↔ ∀ e ∈ r.definitions, key e ≠ some k := by
  rw [Option.eq_none_iff_forall_ne_some]
  simp only [ne_eq, owner?_eq_some_iff hindex, not_exists, not_and]
  constructor
  · intro hfree e he
    obtain ⟨h, hh⟩ := List.getElem?_of_mem he
    exact hfree e h hh
  · exact fun hfree e h hh => hfree e (List.mem_of_getElem? hh)

/-- The name is checked before the UUID, and both before anything is changed. -/
private theorem register_outcome (hr : r.IsIndexed) (d : Definition) :
    Outcome r d (r.register d).1 (r.register d).2 := by
  rw [register]
  split
  · rename_i owner howner
    obtain ⟨h, howned, hname⟩ := (owner?_eq_some_iff hr.names).mp howner
    exact .nameTaken howned (Option.some.inj hname)
  · rename_i hnone
    have hname : ∀ e ∈ r.definitions, e.name ≠ d.name := by
      simpa using (owner?_eq_none_iff hr.names).mp hnone
    split
    · rename_i huuid
      exact .registered hname fun e _ u hu => by simp [huuid] at hu
    · rename_i uuid huuid
      split
      · rename_i owner howner
        obtain ⟨h, howned, hsame⟩ := (owner?_eq_some_iff hr.uuids).mp howner
        exact .uuidTaken hname howned huuid hsame
      · rename_i hfree
        refine .registered hname fun e he u hu => ?_
        cases huuid.symm.trans hu
        exact (owner?_eq_none_iff hr.uuids).mp hfree e he

private theorem isIndexed_empty : empty.IsIndexed :=
  ⟨fun k h => by simp [empty, Registry.empty, Registry.get?],
    fun k h => by simp [empty, Registry.empty, Registry.get?]⟩

private theorem IsIndexed.outcome (hr : r.IsIndexed) {r' : OpenRegistry}
    {answer : Except Problem Handle} (h : Outcome r d r' answer) : r'.IsIndexed := by
  cases h with
  | nameTaken _ _ => exact hr
  | uuidTaken _ _ _ _ => exact hr
  | registered hname huuid =>
    refine ⟨hr.names.push rfl (by simpa using hname), ?_⟩
    change Indexes Definition.uuid (r.insert d).byUuid ⟨r.definitions ++ [d]⟩
    rw [insert]
    cases hd : d.uuid with
    | none => exact hr.uuids.skip hd
    | some uuid => exact hr.uuids.push hd fun e he => huuid e he uuid hd

private theorem IsIndexed.register (hr : r.IsIndexed) (d : Definition) :
    (r.register d).1.IsIndexed :=
  hr.outcome (register_outcome hr d)

private theorem Outcome.prefix_definitions {r' : OpenRegistry} {answer : Except Problem Handle}
    (h : Outcome r d r' answer) : r.definitions <+: r'.definitions := by
  cases h with
  | registered _ _ => exact List.prefix_append _ _
  | nameTaken _ _ => exact List.prefix_rfl
  | uuidTaken _ _ _ _ => exact List.prefix_rfl

private theorem handles_insert (r : OpenRegistry) (d : Definition) :
    (r.insert d).handles = r.handles ++ [r.size] := by
  simp [Registry.handles, Registry.size, insert, List.range_succ]

private theorem Outcome.eq_of_error {r' : OpenRegistry} {problem : Problem}
    (h : Outcome r d r' (.error problem)) : r' = r := by
  cases h <;> rfl

private theorem Outcome.handles {r' : OpenRegistry} {answer : Except Problem Handle}
    (h : Outcome r d r' answer) : r'.handles = r.handles ++ answer.toOption.toList := by
  cases h with
  | registered _ _ => exact handles_insert r d
  | nameTaken _ _ => exact (List.append_nil _).symm
  | uuidTaken _ _ _ _ => exact (List.append_nil _).symm

private theorem Outcome.get? {r' : OpenRegistry} {h : Handle} (hok : Outcome r d r' (.ok h)) :
    r'.get? h = some d := by
  cases hok with
  | registered _ _ => exact Registry.get?_concat.mpr (.inr ⟨rfl, rfl⟩)

/-! ## Runs -/

private theorem IsIndexed.registerAll (hr : r.IsIndexed) (ds : List Definition) :
    (r.registerAll ds).1.IsIndexed := by
  induction ds generalizing r with
  | nil => exact hr
  | cons d ds ih => exact ih (hr.register d)

private theorem prefix_registerAll (hr : r.IsIndexed) (ds : List Definition) :
    r.definitions <+: (r.registerAll ds).1.definitions := by
  induction ds generalizing r with
  | nil => exact List.prefix_rfl
  | cons d ds ih =>
    exact (register_outcome hr d).prefix_definitions.trans (ih (hr.register d))

private theorem length_registerAll (r : OpenRegistry) (ds : List Definition) :
    (r.registerAll ds).2.length = ds.length := by
  induction ds generalizing r with
  | nil => rfl
  | cons d ds ih => exact congrArg Nat.succ (ih _)

private theorem registerAll_cons (r : OpenRegistry) (d : Definition) (ds : List Definition) :
    r.registerAll (d :: ds) = (((r.register d).1.registerAll ds).1,
      (r.register d).2 :: ((r.register d).1.registerAll ds).2) := rfl

private theorem handles_registerAll (hr : r.IsIndexed) (ds : List Definition) :
    r.handles ++ (r.registerAll ds).2.filterMap Except.toOption =
      (r.registerAll ds).1.handles := by
  induction ds generalizing r with
  | nil => exact List.append_nil _
  | cons d ds ih =>
    rw [registerAll_cons, ← ih (hr.register d), (register_outcome hr d).handles, List.append_assoc]
    cases (r.register d).2 <;> rfl

private theorem get?_of_definitions {r r' : Registry} (hmore : r.definitions <+: r'.definitions)
    {h : Handle} (hd : r.get? h = some d) : r'.get? h = some d := by
  obtain ⟨later, hlater⟩ := hmore
  rw [Registry.get?, ← hlater, List.getElem?_append_left (Registry.get?_eq_some_lt hd)]
  exact hd

private theorem get?_registerAll (hr : r.IsIndexed) {ds : List Definition} {i : Nat} {h : Handle}
    (hd : ds[i]? = some d) (hanswer : (r.registerAll ds).2[i]? = some (.ok h)) :
    (r.registerAll ds).1.get? h = some d := by
  induction ds generalizing r i with
  | nil => cases hd
  | cons first ds ih =>
    cases i with
    | zero =>
      cases hd
      have hok : (r.register d).2 = .ok h := Option.some.inj hanswer
      exact get?_of_definitions (prefix_registerAll (hr.register d) ds)
        (hok ▸ register_outcome hr d).get?
    | succ i => exact ih (hr.register first) hd hanswer

end OpenRegistry

/-! ## Kinds -/

private theorem lookup_indexKind (kind k : Kind) (h : Handle) (index : List (Kind × List Handle)) :
    ((indexKind kind h index).lookup k).getD [] =
      (index.lookup k).getD [] ++ if kind = k then [h] else [] := by
  induction index with
  | nil =>
    rw [indexKind, List.lookup_cons]
    by_cases hk : kind = k
    · simp [hk]
    · have hne : (k == kind) = false := beq_false_of_ne (Ne.symm hk)
      simp [hk, hne]
  | cons entry index ih =>
    obtain ⟨first, hs⟩ := entry
    rw [indexKind]
    by_cases hfirst : first = kind
    · subst hfirst
      by_cases hk : first = k
      · simp [hk]
      · have hne : (k == first) = false := beq_false_of_ne (Ne.symm hk)
        simp [hk, List.lookup_cons, hne]
    · rw [if_neg hfirst, List.lookup_cons, List.lookup_cons]
      cases hk : k == first with
      | true =>
        have hne : kind ≠ k := fun heq => hfirst ((eq_of_beq hk).symm.trans heq.symm)
        simp [hne]
      | false => exact ih

namespace ClosedRegistry

private theorem lookup_foldl_indexKind (kind : Kind) (ds : List (Definition × Handle))
    (index : List (Kind × List Handle)) :
    ((ds.foldl (fun index (d, h) => indexKind d.kind h index) index).lookup kind).getD [] =
      (index.lookup kind).getD [] ++ (ds.filter (·.1.kind = kind)).map Prod.snd := by
  induction ds generalizing index with
  | nil => simp
  | cons entry ds ih =>
    rw [List.foldl_cons, ih, lookup_indexKind, List.append_assoc, List.filter_cons]
    by_cases hkind : entry.1.kind = kind <;> simp [hkind]

private theorem ofKind_close (r : OpenRegistry) (kind : Kind) :
    r.close.ofKind kind = (r.definitions.zipIdx.filter (·.1.kind = kind)).map Prod.snd :=
  lookup_foldl_indexKind kind r.definitions.zipIdx []

private theorem mem_ofKind_close {r : OpenRegistry} {kind : Kind} {h : Handle} :
    h ∈ r.close.ofKind kind ↔ ∃ d, r.get? h = some d ∧ d.kind = kind := by
  rw [ofKind_close]
  simp [List.mem_zipIdx_iff_getElem?, Registry.get?]

private theorem pairwise_ofKind_close (r : OpenRegistry) (kind : Kind) :
    (r.close.ofKind kind).Pairwise (· < ·) := by
  have hrange : (r.definitions.zipIdx.map Prod.snd).Pairwise (· < ·) := by
    rw [List.zipIdx_map_snd]
    exact List.pairwise_lt_range'
  rw [ofKind_close]
  exact hrange.sublist (List.filter_sublist.map _)

/-- Whether the indexes of a registry tell its definitions: each name and each UUID has its one
handle, and each handle stands in the list of its kind, in order. -/
structure IsConsistent (r : ClosedRegistry) : Prop where
  names : ∀ name h, r.lookup name = some h ↔ ∃ d, r.get? h = some d ∧ d.name = name
  uuids : ∀ uuid h, r.lookupUuid uuid = some h ↔ ∃ d, r.get? h = some d ∧ d.uuid = some uuid
  nameInjective : ∀ h h' d d', r.get? h = some d → r.get? h' = some d' → d.name = d'.name → h = h'
  uuidInjective : ∀ h h' d d' uuid, r.get? h = some d → r.get? h' = some d' →
    d.uuid = some uuid → d'.uuid = some uuid → h = h'
  kinds : ∀ kind h, h ∈ r.ofKind kind ↔ ∃ d, r.get? h = some d ∧ d.kind = kind
  increasing : ∀ kind, (r.ofKind kind).Pairwise (· < ·)
  partition : ∀ h ∈ r.handles, ∃! kind, h ∈ r.ofKind kind

end ClosedRegistry

namespace OpenRegistry

open ClosedRegistry

private theorem IsIndexed.close {r : OpenRegistry} (hr : r.IsIndexed) :
    r.close.IsConsistent where
  names name h := (hr.names name h).trans (by simp [OpenRegistry.close])
  uuids uuid h := hr.uuids uuid h
  nameInjective h h' d d' hd hd' hname :=
    hr.names.injective hd hd' (congrArg some hname) rfl
  uuidInjective h h' d d' uuid hd hd' hk hk' := hr.uuids.injective hd hd' hk hk'
  kinds kind h := mem_ofKind_close
  increasing kind := pairwise_ofKind_close r kind
  partition h hmem := by
    obtain ⟨d, hd⟩ : ∃ d, r.get? h = some d :=
      ⟨_, Registry.get?_eq_getElem (Registry.mem_handles.mp hmem)⟩
    refine ⟨d.kind, mem_ofKind_close.mpr ⟨d, hd, rfl⟩, fun kind hkind => ?_⟩
    obtain ⟨d', hd', rfl⟩ := mem_ofKind_close.mp hkind
    cases hd.symm.trans hd'
    rfl

/-! ## The same without indexes -/

private theorem lookup_eq_findIdx? {α : Type} [BEq α] [LawfulBEq α] {key : Definition → Option α}
    {index : List (α × Handle)} {r : Registry} (hr : Indexes key index r) (k : α) :
    index.lookup k = r.definitions.findIdx? fun d => key d == some k := by
  symm
  cases hlookup : index.lookup k with
  | none => simpa using hr.lookup_eq_none_iff.mp hlookup
  | some h =>
    obtain ⟨d, hd, hk⟩ := hr.exists_of_lookup hlookup
    obtain ⟨hlt, hget⟩ := List.getElem?_eq_some_iff.mp hd
    refine List.findIdx?_eq_some_iff_getElem.mpr ⟨hlt, by simp [hget, hk], fun j hj hsame => ?_⟩
    have hj' : r.get? j = some _ := Registry.get?_eq_getElem (hj.trans hlt)
    exact Nat.ne_of_lt hj (hr.injective hj' hd (eq_of_beq hsame) hk)

private theorem owner?_eq_find? {α : Type} [BEq α] [LawfulBEq α] {key : Definition → Option α}
    {index : List (α × Handle)} {r : OpenRegistry} (hr : Indexes key index r.toRegistry) (k : α) :
    r.owner? index k = r.definitions.find? fun d => key d == some k := by
  rw [owner?, lookup_eq_findIdx? hr, List.find?_eq_bind_findIdx?_getElem?]
  rfl

private theorem register_toRegistry {r : OpenRegistry} (hr : r.IsIndexed) (d : Definition) :
    r.toRegistry.register d = (r.register d).2.map fun h => ((r.register d).1.toRegistry, h) := by
  have hname : r.owner? r.byName d.name = r.definitions.find? (·.name == d.name) :=
    owner?_eq_find? hr.names d.name
  rw [Registry.register, Registry.conflict?, register, ← hname]
  cases r.owner? r.byName d.name with
  | some existing => rfl
  | none =>
    cases huuid : d.uuid with
    | none => rfl
    | some uuid =>
      simp only [← owner?_eq_find? hr.uuids uuid]
      cases r.owner? r.byUuid uuid <;> rfl

private theorem ofKind_close_eq (r : OpenRegistry) (kind : Kind) :
    r.close.ofKind kind = r.toRegistry.ofKind kind := by
  have hrange : (r.toRegistry.ofKind kind).Pairwise (· < ·) :=
    List.pairwise_lt_range.sublist List.filter_sublist
  have hperm : (r.close.ofKind kind).Perm (r.toRegistry.ofKind kind) := by
    rw [List.perm_ext_iff_of_nodup ((pairwise_ofKind_close r kind).imp Nat.ne_of_lt)
      (hrange.imp Nat.ne_of_lt)]
    intro h
    rw [mem_ofKind_close, Registry.ofKind, List.mem_filter, beq_iff_eq, Registry.kind?_eq_some_iff]
    exact ⟨fun ⟨d, hd, hkind⟩ => ⟨Registry.mem_handles_of_get? hd, d, hd, hkind⟩, And.right⟩
  exact hperm.eq_of_pairwise (fun a b _ _ hab hba => absurd hab (Nat.lt_asymm hba))
    (pairwise_ofKind_close r kind) hrange

/-- Whether an indexed registry behaves like one without indexes. -/
structure Simulates (r : OpenRegistry) (plain : Registry) : Prop where
  definitions : r.toRegistry = plain
  /-- It takes and refuses the same, with the same answers. -/
  register : ∀ d, plain.register d =
    (r.register d).2.map fun h => ((r.register d).1.toRegistry, h)
  lookup : ∀ name, r.close.lookup name = plain.find? name
  lookupUuid : ∀ uuid, r.close.lookupUuid uuid = plain.findUuid? uuid
  ofKind : ∀ kind, r.close.ofKind kind = plain.ofKind kind

private theorem IsIndexed.simulates {r : OpenRegistry} (hr : r.IsIndexed) :
    r.Simulates r.toRegistry where
  definitions := rfl
  register := register_toRegistry hr
  lookup := lookup_eq_findIdx? hr.names
  lookupUuid := lookup_eq_findIdx? hr.uuids
  ofKind := ofKind_close_eq r

end OpenRegistry

/-- The registry after definitions were offered in turn, with the answer to each of them. -/
def Registry.registerAll (r : Registry) :
    List Definition → Registry × List (Except Problem Handle)
  | [] => (r, [])
  | d :: ds =>
    let (r, answer) := match r.register d with
      | .ok (r, h) => (r, .ok h)
      | .error problem => (r, .error problem)
    let (r, answers) := registerAll r ds
    (r, answer :: answers)

namespace OpenRegistry

private theorem IsIndexed.registerAll_toRegistry {r : OpenRegistry} (hr : r.IsIndexed)
    (ds : List Definition) : r.toRegistry.registerAll ds =
      ((r.registerAll ds).1.toRegistry, (r.registerAll ds).2) := by
  induction ds generalizing r with
  | nil => rfl
  | cons d ds ih =>
    have hlater := ih (hr.register d)
    rw [Registry.registerAll, hr.simulates.register, registerAll_cons]
    cases hanswer : (r.register d).2 with
    | ok h => simp [Except.map, hlater]
    | error problem =>
      have hsame : (r.register d).1 = r := (hanswer ▸ register_outcome hr d).eq_of_error
      rw [hsame] at hlater ⊢
      simp [Except.map, hlater]

/-- Whatever is offered, an indexed registry behaves like one without indexes. -/
theorem registerAll_simulates (ds : List Definition) :
    (empty.registerAll ds).1.Simulates (Registry.empty.registerAll ds).1 ∧
      (empty.registerAll ds).2 = (Registry.empty.registerAll ds).2 := by
  have hrun : Registry.empty.registerAll ds =
      ((empty.registerAll ds).1.toRegistry, (empty.registerAll ds).2) :=
    isIndexed_empty.registerAll_toRegistry ds
  rw [hrun]
  exact ⟨(isIndexed_empty.registerAll ds).simulates, rfl⟩

/-- What a registry and the answers it gave say of the definitions that were offered to it. -/
structure Represents (r : OpenRegistry) (ds : List Definition)
    (answers : List (Except Problem Handle)) : Prop where
  answered : answers.length = ds.length
  /-- The handles that were given out are dense and in order. -/
  dense : answers.filterMap Except.toOption = r.handles
  /-- A definition is still what it was when it was registered. -/
  kept : ∀ (i : Nat) (d : Definition) (h : Handle), ds[i]? = some d →
    answers[i]? = some (.ok h) → r.get? h = some d
  stands : ∀ later, r.definitions <+: (r.registerAll later).1.definitions
  next : ∀ d, Outcome r d (r.register d).1 (r.register d).2
  closed : r.close.IsConsistent

/-- Whatever is offered to a registry, it represents what was registered. -/
theorem registerAll_represents (ds : List Definition) :
    (empty.registerAll ds).1.Represents ds (empty.registerAll ds).2 := by
  have hr := isIndexed_empty.registerAll ds
  exact ⟨length_registerAll empty ds, handles_registerAll isIndexed_empty ds,
    fun i d h hd hanswer => get?_registerAll isIndexed_empty hd hanswer,
    prefix_registerAll hr, register_outcome hr, hr.close⟩

end OpenRegistry

end UiCatalog
