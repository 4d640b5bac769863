import UiCatalog.Proofs.Ancestry.Ascent
/-!
# Cycles of parents

Every way up that runs into a cycle finds it at some member, and the rotation to the member with
the lowest name makes all of them agree. So each cycle is reported once, on that member, and each
type below a cycle reports the same list of names once.
-/

namespace UiCatalog

open Relation

namespace Registry

variable {r : Registry}

/-- A cycle of parents that is listed from its member with the lowest name on. -/
structure IsLowestCycle (r : Registry) (c : List Handle) : Prop where
  cycle : IsCycle r.Inherits c
  lowest : ∀ m ∈ c.head?, ∀ h ∈ c, r.name m ≤ r.name h

/-- Whether the parents of a definition, itself included, come to a member of a cycle. -/
def LeadsInto (r : Registry) (h : Handle) (c : List Handle) : Prop :=
  ∃ m ∈ c, ReflTransGen r.Inherits h m

theorem leadsInto_of_mem {h : Handle} {c : List Handle} (hh : h ∈ c) : r.LeadsInto h c :=
  ⟨h, hh, ReflTransGen.refl⟩

theorem cycle_find?_name {c : List Handle} {h : Handle} (hc : IsCycle r.Inherits c)
    (hh : h ∈ c) : r.find? (r.name h) = some h ∧ r.kind? h = some .type := by
  obtain ⟨q, _, hq⟩ := TransGen.tail'_iff.mp (hc.transGen hh)
  exact ⟨hq.find?_name, hq.kind⟩

private theorem cycle_name_injective {c : List Handle} {h k : Handle}
    (hc : IsCycle r.Inherits c) (hh : h ∈ c) (hk : k ∈ c)
    (hname : r.name h = r.name k) : h = k := by
  have hfind := (cycle_find?_name hc hh).1
  rw [hname, (cycle_find?_name hc hk).1] at hfind
  exact (Option.some.inj hfind).symm

private theorem cycle_names_nodup {c : List Handle} (hc : IsCycle r.Inherits c) :
    (c.map r.name).Nodup :=
  List.Nodup.map_on (fun _ hh _ hk hname => cycle_name_injective hc hh hk hname) hc.nodup

private theorem fromLowest_isLowestCycle {c : List Handle} (hc : IsCycle r.Inherits c) :
    r.IsLowestCycle (r.fromLowest c) ∧ r.fromLowest c ~r c := by
  cases hlow : r.lowest? c with
  | none => exact absurd (lowest?_eq_none_iff.mp hlow) hc.ne_nil
  | some m =>
    obtain ⟨hmem, hle⟩ := lowest?_eq_some hlow
    obtain ⟨l, l', rfl, hnot⟩ := List.eq_append_cons_of_mem hmem
    have hfrom : r.fromLowest (l ++ m :: l') = m :: l' ++ l := by
      rw [fromLowest, hlow]
      dsimp only
      rw [dropWhile_ne_append hnot, takeWhile_ne_append hnot]
    rw [hfrom]
    refine ⟨⟨hc.rotate, fun k hk h hh => ?_⟩, List.isRotated_append⟩
    obtain rfl : m = k := by simpa using hk
    exact hle h (List.mem_append.mpr (List.mem_append.mp hh).symm)

/-- A cycle has one rotation that starts at its lowest name. -/
private theorem IsLowestCycle.eq_of_isRotated {c c' : List Handle} (hc : r.IsLowestCycle c)
    (hc' : r.IsLowestCycle c') (hrot : c ~r c') : c = c' := by
  obtain ⟨m, l, rfl⟩ := List.exists_cons_of_ne_nil hc.cycle.ne_nil
  obtain ⟨m', l', rfl⟩ := List.exists_cons_of_ne_nil hc'.cycle.ne_nil
  have hm' : m' ∈ m :: l := hrot.mem_iff.mpr (by simp)
  have hm : m ∈ m' :: l' := hrot.mem_iff.mp (by simp)
  have hname : r.name m = r.name m' :=
    le_antisymm (hc.lowest m rfl m' hm') (hc'.lowest m' rfl m hm)
  obtain rfl : m = m' := cycle_name_injective hc.cycle (by simp) hm' hname
  rw [IsCycle.eq_of_head r.inherits_rightUnique hc.cycle hc'.cycle]

private theorem IsLowestCycle.eq_of_leadsInto {c c' : List Handle} {h : Handle}
    (hc : r.IsLowestCycle c) (hc' : r.IsLowestCycle c') (hh : r.LeadsInto h c)
    (hh' : r.LeadsInto h c') : c = c' := by
  obtain ⟨m, hm, hreach⟩ := hh
  obtain ⟨m', hm', hreach'⟩ := hh'
  refine hc.eq_of_isRotated hc' ?_
  exact IsCycle.isRotated_of_reaches r.inherits_rightUnique hc.cycle hc'.cycle hm hm' hreach hreach'

/-- The cycle that the way up from a definition comes to, from its lowest name on. -/
def cycleAbove? (r : Registry) (h : Handle) : Option (List Handle) :=
  (r.ascent h).back.map fun m => r.fromLowest ((r.ascent h).path.dropWhile (· != m))

theorem cycleAbove?_eq_some_iff {h : Handle} {c : List Handle} (hh : h ∈ r.handles) :
    r.cycleAbove? h = some c ↔ r.IsLowestCycle c ∧ r.LeadsInto h c := by
  have hsound {c : List Handle} (hc : r.cycleAbove? h = some c) :
      r.IsLowestCycle c ∧ r.LeadsInto h c := by
    obtain ⟨m, hback, rfl⟩ := Option.map_eq_some_iff.mp hc
    obtain ⟨hcycle, hm, hreach⟩ := ascent_cycle hh hback
    obtain ⟨hlowest, hrot⟩ := fromLowest_isLowestCycle hcycle
    exact ⟨hlowest, m, hrot.mem_iff.mpr hm, hreach⟩
  refine ⟨hsound, fun ⟨hc, hleads⟩ => ?_⟩
  cases habove : r.cycleAbove? h with
  | none =>
    obtain ⟨m, hm, hreach⟩ := hleads
    have hback : (r.ascent h).back = none := Option.map_eq_none_iff.mp habove
    exact absurd hreach (not_reaches_of_back hback (hc.cycle.transGen hm))
  | some c' =>
    obtain ⟨hc', hleads'⟩ := hsound habove
    rw [hc.eq_of_leadsInto hc' hleads hleads']

end Registry

def Problem.concernsParentCycle (p : Problem) : Bool :=
  match p.cause with
  | .cyclicInheritance _ | .inheritsCycle _ => true
  | _ => false

namespace Lineage

private theorem parentProblems_filter (r : Registry) (subject : String) (parent : Option String) :
    ((parent.map (parentProblems r subject)).getD []).filter Problem.concernsParentCycle = [] := by
  cases parent with
  | none => rfl
  | some parent =>
    simp only [Option.map_some, Option.getD_some, parentProblems]
    split <;> simp [Problem.concernsParentCycle]

/-- The problems of a type are those of its parent and what there is to say about the cycle that its
parents come to. -/
theorem ofType_problems (r : Registry) (h : Handle) (d : Definition) :
    (ofType r h d).problems = ((d.parent.map (parentProblems r d.name)).getD []) ++
      match r.cycleAbove? h with
      | none => []
      | some c =>
        if h ∈ c then
          if c.head? = some h then [⟨d.name, .cyclicInheritance (c.map r.name)⟩] else []
        else [⟨d.name, .inheritsCycle (c.map r.name)⟩] := by
  unfold ofType Registry.cycleAbove? Registry.ascent
  dsimp only
  cases (ascend r.parentType? r.handles h).back with
  | none => exact (List.append_nil _).symm
  | some m => rfl

theorem ofType_problems_filter (r : Registry) (h : Handle) (d : Definition) :
    (ofType r h d).problems.filter Problem.concernsParentCycle =
      match r.cycleAbove? h with
      | none => []
      | some c =>
        if h ∈ c then
          if c.head? = some h then [⟨d.name, .cyclicInheritance (c.map r.name)⟩] else []
        else [⟨d.name, .inheritsCycle (c.map r.name)⟩] := by
  rw [ofType_problems, List.filter_append, parentProblems_filter r d.name d.parent, List.nil_append]
  split
  · rfl
  · split
    · split <;> simp [Problem.concernsParentCycle]
    · simp [Problem.concernsParentCycle]

end Lineage

namespace Ancestry

theorem lineage?_ofRegistry (r : Registry) (h : Handle) :
    (ofRegistry r).lineage? h =
      (r.get? h).bind fun d => if d.kind = .type then some (Lineage.ofType r h d) else none := by
  simp only [lineage?, ofRegistry, Registry.get?, List.getElem?_map, List.getElem?_zipIdx]
  cases r.definitions[h]? <;> simp

theorem mem_problems_iff {a : Ancestry} {h : Handle} {p : Problem} :
    (h, p) ∈ a.problems ↔ ∃ l, a.lineage? h = some l ∧ p ∈ l.problems := by
  simp only [problems, List.mem_flatMap, List.mem_map, Prod.exists, lineage?]
  constructor
  · rintro ⟨lineage, k, hmem, q, hq, heq⟩
    obtain ⟨rfl, rfl⟩ := Prod.mk.inj heq
    have hget : a.lineages[k]? = some lineage := List.mk_mem_zipIdx_iff_getElem?.mp hmem
    cases lineage with
    | none => simp at hq
    | some l => exact ⟨l, by simp [hget], by simpa using hq⟩
  · rintro ⟨l, hl, hp⟩
    have hget : a.lineages[h]? = some (some l) := by
      simpa [Option.join_eq_some_iff] using hl
    exact ⟨some l, h, List.mk_mem_zipIdx_iff_getElem?.mpr hget, p, by simpa using hp, rfl⟩

def cycleReports (a : Ancestry) : List (Handle × Problem) :=
  a.problems.filter (·.2.concernsParentCycle)

theorem mem_cycleReports_iff {r : Registry} {h : Handle} {p : Problem} :
    (h, p) ∈ (ofRegistry r).cycleReports ↔ ∃ d, r.get? h = some d ∧ d.kind = .type ∧
      p ∈ (Lineage.ofType r h d).problems.filter Problem.concernsParentCycle := by
  simp only [cycleReports, List.mem_filter, mem_problems_iff, lineage?_ofRegistry,
    Option.bind_eq_some_iff]
  constructor
  · rintro ⟨⟨l, ⟨d, hd, hl⟩, hp⟩, hcycle⟩
    split at hl
    · rename_i hkind
      obtain rfl := Option.some.inj hl
      exact ⟨d, hd, hkind, hp, hcycle⟩
    · simp at hl
  · rintro ⟨d, hd, hkind, hp, hcycle⟩
    exact ⟨⟨_, ⟨d, hd, if_pos hkind⟩, hp⟩, hcycle⟩

private theorem cycleReports_nodup (r : Registry) : (ofRegistry r).cycleReports.Nodup := by
  unfold cycleReports problems
  rw [List.filter_flatMap, List.nodup_flatMap]
  constructor
  · rintro ⟨lineage, h⟩ hmem
    have hget : (ofRegistry r).lineages[h]? = some lineage :=
      List.mk_mem_zipIdx_iff_getElem?.mp hmem
    have hlineage : (ofRegistry r).lineage? h = lineage := by simp [lineage?, hget]
    rw [lineage?_ofRegistry] at hlineage
    cases lineage with
    | none => simp
    | some l =>
      obtain ⟨d, _, hl⟩ := Option.bind_eq_some_iff.mp hlineage
      split at hl
      · obtain rfl := Option.some.inj hl
        have hfilter : (((Lineage.ofType r h d).problems.map (h, ·)).filter
            fun q => q.2.concernsParentCycle) =
            ((Lineage.ofType r h d).problems.filter Problem.concernsParentCycle).map (h, ·) := by
          rw [List.filter_map]
          rfl
        simp only [Option.map_some, Option.getD_some]
        rw [hfilter, Lineage.ofType_problems_filter]
        split
        · simp
        · split
          · split <;> simp
          · simp
      · simp at hl
  · have hkeys : ((ofRegistry r).lineages.zipIdx.map Prod.snd).Nodup := by
      rw [List.zipIdx_map_snd]
      exact List.nodup_range'
    rw [List.nodup_iff_pairwise_ne, List.pairwise_map] at hkeys
    refine hkeys.imp ?_
    rintro ⟨l, h⟩ ⟨l', h'⟩ hne q hq hq'
    simp only [List.mem_filter, List.mem_map] at hq hq'
    obtain ⟨⟨_, _, rfl⟩, _⟩ := hq
    obtain ⟨⟨_, _, heq⟩, _⟩ := hq'
    exact hne (congrArg Prod.fst heq).symm

/-- A type has a chain if and only if its way up ends, and then it is that way. -/
theorem chain?_eq_some_iff {r : Registry} {h : Handle} {chain : List Handle} :
    (ofRegistry r).chain? h = some chain ↔
      r.kind? h = some .type ∧ (r.ascent h).back = none ∧ chain = (r.ascent h).path := by
  rw [chain?, lineage?_ofRegistry, Registry.kind?]
  cases r.get? h with
  | none => simp
  | some d =>
    rw [Option.bind_some, Option.map_some, Option.some.injEq]
    by_cases hkind : d.kind = .type
    · rw [if_pos hkind, Option.bind_some]
      unfold Lineage.ofType Registry.ascent
      dsimp only
      cases hback : (ascend r.parentType? r.handles h).back with
      | none => simp [hkind, eq_comm]
      | some m => simp
    · simp [hkind]

private theorem chain?_eq_none_of_leadsInto {r : Registry} {h : Handle} {c : List Handle}
    (hc : IsCycle r.Inherits c) (hleads : r.LeadsInto h c) :
    (ofRegistry r).chain? h = none := by
  obtain ⟨m, hm, hreach⟩ := hleads
  cases hchain : (ofRegistry r).chain? h with
  | none => rfl
  | some chain =>
    have hback := (chain?_eq_some_iff.mp hchain).2.1
    exact absurd hreach (Registry.not_reaches_of_back hback (hc.transGen hm))

/-- What is said about a cycle is said by its member with the lowest name and by the types below. -/
private theorem mem_cycleReports_iff_isLowestCycle {r : Registry} {h : Handle} {p : Problem} :
    (h, p) ∈ (ofRegistry r).cycleReports ↔
      (∃ c, r.IsLowestCycle c ∧ c.head? = some h ∧
        p = ⟨r.name h, .cyclicInheritance (c.map r.name)⟩) ∨
      ∃ c, r.IsLowestCycle c ∧ r.kind? h = some .type ∧ h ∉ c ∧ r.LeadsInto h c ∧
        p = ⟨r.name h, .inheritsCycle (c.map r.name)⟩ := by
  rw [mem_cycleReports_iff]
  constructor
  · rintro ⟨d, hd, hkind, hp⟩
    have hname := Registry.name_of_get? hd
    rw [Lineage.ofType_problems_filter] at hp
    split at hp
    · simp at hp
    · rename_i c habove
      obtain ⟨hc, hleads⟩ :=
        (Registry.cycleAbove?_eq_some_iff (Registry.mem_handles_of_get? hd)).mp habove
      split at hp
      · split at hp
        · rename_i hhead
          exact Or.inl ⟨c, hc, hhead, by rw [List.mem_singleton.mp hp, hname]⟩
        · simp at hp
      · rename_i hnot
        refine Or.inr ⟨c, hc, ?_, hnot, hleads, by rw [List.mem_singleton.mp hp, hname]⟩
        rw [Registry.kind?_of_get? hd, hkind]
  · rintro (⟨c, hc, hhead, rfl⟩ | ⟨c, hc, hkind, hnot, hleads, rfl⟩)
    · have hmem : h ∈ c := List.mem_of_mem_head? hhead
      obtain ⟨d, hd, hkind⟩ :=
        Registry.kind?_eq_some_iff.mp (Registry.cycle_find?_name hc.cycle hmem).2
      have habove := (Registry.cycleAbove?_eq_some_iff (Registry.mem_handles_of_get? hd)).mpr
        ⟨hc, Registry.leadsInto_of_mem hmem⟩
      refine ⟨d, hd, hkind, ?_⟩
      rw [Lineage.ofType_problems_filter, habove]
      simp [hmem, hhead, Registry.name_of_get? hd]
    · obtain ⟨d, hd, hkind⟩ := Registry.kind?_eq_some_iff.mp hkind
      have habove := (Registry.cycleAbove?_eq_some_iff (Registry.mem_handles_of_get? hd)).mpr
        ⟨hc, hleads⟩
      refine ⟨d, hd, hkind, ?_⟩
      rw [Lineage.ofType_problems_filter, habove]
      simp [hnot, Registry.name_of_get? hd]

/-- Each cycle of parents is reported once, on its member with the lowest name and with the names
of its members in the order of the parent links from there on. A type that is not on a cycle but
comes to one reports the same names once. Nothing else is reported about cycles, and none of these
types has a chain. -/
theorem cycleReports_exact (r : Registry) :
    (∀ c, IsCycle r.Inherits c → ∃! c', r.IsLowestCycle c' ∧ c' ~r c) ∧
    (∀ c, r.IsLowestCycle c → (c.map r.name).Nodup) ∧
    (∀ h c c', r.IsLowestCycle c → r.IsLowestCycle c' → r.LeadsInto h c → r.LeadsInto h c' →
      c = c') ∧
    (ofRegistry r).cycleReports.Nodup ∧
    (∀ h p, (h, p) ∈ (ofRegistry r).cycleReports ↔
      (∃ c, r.IsLowestCycle c ∧ c.head? = some h ∧
        p = ⟨r.name h, .cyclicInheritance (c.map r.name)⟩) ∨
      (∃ c, r.IsLowestCycle c ∧ r.kind? h = some .type ∧ h ∉ c ∧ r.LeadsInto h c ∧
        p = ⟨r.name h, .inheritsCycle (c.map r.name)⟩)) ∧
    (∀ h c, r.IsLowestCycle c → r.LeadsInto h c → (ofRegistry r).chain? h = none) := by
  refine ⟨fun c hc => ?_, fun c hc => Registry.cycle_names_nodup hc.cycle,
    fun h c c' hc hc' => hc.eq_of_leadsInto hc', cycleReports_nodup r,
    fun _ _ => mem_cycleReports_iff_isLowestCycle,
    fun h c hc => chain?_eq_none_of_leadsInto hc.cycle⟩
  obtain ⟨hlowest, hrot⟩ := Registry.fromLowest_isLowestCycle hc
  refine ⟨r.fromLowest c, ⟨hlowest, hrot⟩, fun c' ⟨hc', hrot'⟩ => ?_⟩
  exact hc'.eq_of_isRotated hlowest (hrot'.trans hrot.symm)

end Ancestry

end UiCatalog
