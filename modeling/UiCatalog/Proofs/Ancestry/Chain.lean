import Mathlib.Data.List.Perm.Subperm
import UiCatalog.Proofs.Ancestry.Line
/-!
# Chains of ancestors

The parent of a type is looked up under the name that the type declares. The chain of a type follows
these parents to the one that has none; a type from which no such one is reached has no chain. What
is reported about a parent agrees with what the chain does there.
-/

namespace UiCatalog

open Relation

namespace Registry

/-- Whether a definition has no parent among the types. -/
def IsTop (r : Registry) (h : Handle) : Prop :=
  ∀ p, ¬r.Inherits h p

/-- A way up along parents that goes as far as it can without repeating a type. -/
structure IsWalk (r : Registry) (h : Handle) (path : List Handle) (back : Option Handle) :
    Prop where
  head : path.head? = some h
  steps : (path ++ back.toList).IsChain r.Inherits
  nodup : path.Nodup
  types : ∀ k ∈ path, r.kind? k = some .type
  top : back = none → ∀ k ∈ path.getLast?, r.IsTop k
  /-- A way that is not at a top comes back to a type that it has met. -/
  again : ∀ m ∈ back, m ∈ path

variable {r : Registry} {h p : Handle}

private theorem isTop_iff : r.IsTop h ↔ r.parentType? h = none := by
  rw [IsTop, inherits_eq, Option.eq_none_iff_forall_ne_some]
  rfl

private theorem kind?_of_reaches {k : Handle} (hkind : r.kind? h = some .type)
    (hk : ReflTransGen r.Inherits h k) : r.kind? k = some .type := by
  cases hk with
  | refl => exact hkind
  | tail _ hstep => exact hstep.kind

private theorem isLine_isChain {l : List Handle} (hl : IsLine r.parentType? l) :
    l.IsChain r.Inherits ∧ ∀ k ∈ l.getLast?, r.IsTop k := by
  induction hl with
  | root hnone =>
    refine ⟨List.isChain_singleton _, fun k hk => ?_⟩
    obtain rfl := Option.some.inj hk
    exact isTop_iff.mpr hnone
  | @step h p ps hp _ ih =>
    refine ⟨List.isChain_cons_cons.mpr ⟨inherits_iff.mpr hp, ih.1⟩, fun k hk => ?_⟩
    rw [List.getLast?_cons_cons] at hk
    exact ih.2 k hk

private theorem isWalk_ascent (hkind : r.kind? h = some .type) :
    r.IsWalk h (r.ascent h).path (r.ascent h).back := by
  obtain ⟨d, hd, _⟩ := kind?_eq_some_iff.mp hkind
  have hh : h ∈ r.handles := mem_handles_of_get? hd
  have hhead : (r.ascent h).path.head? = some h := by
    obtain ⟨path, hpath⟩ := ascent_path_eq_cons hh
    rw [hpath, List.head?_cons]
  have hchain := r.ascent_chain h
  refine ⟨hhead, hchain, r.ascent_nodup h, fun k hk => ?_, fun hback => ?_, fun m hm => ?_⟩
  · obtain ⟨path, hpath⟩ := List.head?_eq_some_iff.mp hhead
    have hways : (h :: path).IsChain (ReflTransGen r.Inherits) := by
      rw [← hpath]
      exact hchain.left_of_append.imp fun _ _ hstep => ReflTransGen.single hstep
    rw [hpath] at hk
    rcases List.mem_cons.mp hk with rfl | hk
    · exact hkind
    · exact kind?_of_reaches hkind (hways.rel_cons hk)
  · exact (isLine_isChain (IsLine.ascend_path hback)).2
  · exact ascent_back_mem hh hm

private theorem IsWalk.length_le {path : List Handle} {back : Option Handle}
    (hwalk : r.IsWalk h path back) : path.length ≤ (r.ofKind .type).length := by
  refine (List.Nodup.subperm hwalk.nodup fun k hk => ?_).length_le
  have hkind := hwalk.types k hk
  obtain ⟨d, hd, _⟩ := kind?_eq_some_iff.mp hkind
  exact List.mem_filter.mpr ⟨mem_handles_of_get? hd, by simpa using hkind⟩

/-- What is wrong with a declared parent. -/
inductive ParentFault (r : Registry) (parent : String) : Cause → Prop where
  | unregistered (hfind : r.find? parent = none) : ParentFault r parent (.unresolvedParent parent)
  | otherKind {p : Handle} {k : Kind} (hfind : r.find? parent = some p)
    (hkind : r.kind? p = some k) (hk : k ≠ .type) :
    ParentFault r parent (.typeMismatch "parentType" parent "Type" k)

private theorem exists_parentFault_iff {d : Definition} {parent : String} (hd : r.get? h = some d)
    (hparent : d.parent = some parent) : (∃ cause, r.ParentFault parent cause) ↔ r.IsTop h := by
  constructor
  · rintro ⟨cause, hcause⟩ p ⟨d', parent', hd', hparent', hfind, hkind⟩
    obtain rfl := Option.some.inj (hd.symm.trans hd')
    obtain rfl := Option.some.inj (hparent.symm.trans hparent')
    cases hcause with
    | unregistered hnone => simp [hnone] at hfind
    | otherKind hfind' hkind' hk =>
      obtain rfl := Option.some.inj (hfind.symm.trans hfind')
      exact hk (Option.some.inj (hkind'.symm.trans hkind))
  · intro htop
    cases hfind : r.find? parent with
    | none => exact ⟨_, .unregistered hfind⟩
    | some p =>
      obtain ⟨e, he, _⟩ := get?_of_find? hfind
      have hkind := kind?_of_get? he
      refine ⟨_, .otherKind hfind hkind fun htype => ?_⟩
      exact htop p ⟨d, parent, hd, hparent, hfind, htype ▸ hkind⟩

end Registry

def Problem.concernsParent (p : Problem) : Bool :=
  match p.cause with
  | .unresolvedParent _ | .typeMismatch _ _ _ _ => true
  | _ => false

namespace Lineage

variable {r : Registry} {h : Handle} {d : Definition}

private theorem mem_parentProblems_iff {subject parent : String} {p : Problem} :
    p ∈ parentProblems r subject parent ↔ p.subject = subject ∧ r.ParentFault parent p.cause := by
  obtain ⟨subject', cause⟩ := p
  unfold parentProblems
  cases hfind : r.find? parent with
  | none =>
    simp only [Option.bind_none, List.mem_singleton, Problem.mk.injEq]
    refine and_congr_right fun _ => ⟨fun hcause => hcause ▸ .unregistered hfind, fun hcause => ?_⟩
    cases hcause with
    | unregistered => rfl
    | otherKind hfind' => simp [hfind] at hfind'
  | some q =>
    obtain ⟨e, he, _⟩ := Registry.get?_of_find? hfind
    have hkind := Registry.kind?_of_get? he
    rw [Option.bind_some, hkind]
    have hfault (hcause : r.ParentFault parent cause) :
        e.kind ≠ .type ∧ cause = .typeMismatch "parentType" parent "Type" e.kind := by
      cases hcause with
      | unregistered hnone => simp [hfind] at hnone
      | otherKind hfind' hkind' hk =>
        obtain rfl := Option.some.inj (hfind.symm.trans hfind')
        obtain rfl := Option.some.inj (hkind.symm.trans hkind')
        exact ⟨hk, rfl⟩
    split
    · rename_i hnone
      exact absurd hnone (Option.some_ne_none _)
    · rename_i htype
      simp only [List.not_mem_nil, false_iff, not_and]
      exact fun _ hcause => (hfault hcause).1 (Option.some.inj htype)
    · rename_i found htype hfound
      obtain rfl := Option.some.inj hfound
      simp only [List.mem_singleton, Problem.mk.injEq]
      refine and_congr_right fun _ => ⟨?_, fun hcause => (hfault hcause).2⟩
      rintro rfl
      exact .otherKind hfind hkind htype

private theorem mem_ofType_problems_iff {p : Problem} (hp : p.concernsParent = true) :
    p ∈ (ofType r h d).problems ↔
      ∃ parent, d.parent = some parent ∧ p.subject = d.name ∧ r.ParentFault parent p.cause := by
  have hparent : p ∈ (d.parent.map (parentProblems r d.name)).getD [] ↔
      ∃ parent, d.parent = some parent ∧ p.subject = d.name ∧ r.ParentFault parent p.cause := by
    cases d.parent <;> simp [mem_parentProblems_iff]
  rw [ofType_problems, List.mem_append, hparent, or_iff_left]
  intro hcycle
  have hnone {subject : String} {c : List String} :
      p ≠ ⟨subject, .cyclicInheritance c⟩ ∧ p ≠ ⟨subject, .inheritsCycle c⟩ := by
    constructor <;> rintro rfl <;> simp [Problem.concernsParent] at hp
  split at hcycle
  · simp at hcycle
  · split at hcycle
    · split at hcycle
      · exact hnone.1 (List.mem_singleton.mp hcycle)
      · simp at hcycle
    · exact hnone.2 (List.mem_singleton.mp hcycle)

end Lineage

/-- What the parents and the chains of the definitions of a registry are. -/
structure Ancestry.FollowsParents (r : Registry) (a : Ancestry) : Prop where
  /-- A type refers to its parent by the declared name. -/
  parent_name : ∀ h d, r.get? h = some d →
    (a.parent? h).map Reference.name = if d.kind = .type then d.parent else none
  parent_target : ∀ h p, (a.parent? h).bind Reference.target = some p ↔
    r.kind? h = some .type ∧ r.Inherits h p
  /-- Each way up ends at a top or comes back to a type on it. -/
  walk : ∀ h, r.kind? h = some .type → ∃ path back, r.IsWalk h path back ∧
    path.length ≤ (r.ofKind .type).length ∧ a.chain? h = if back = none then some path else none
  chain_exists : ∀ h, (∃ c, a.chain? h = some c) ↔ r.kind? h = some .type ∧
    ∃ k, ReflTransGen r.Inherits h k ∧ r.kind? k = some .type ∧ r.IsTop k
  chain_exact : ∀ h c, a.chain? h = some c → c.head? = some h ∧ c.IsChain r.Inherits ∧
    (∀ k ∈ c.getLast?, r.IsTop k) ∧ c.Nodup
  chain_step : ∀ h p c, r.kind? h = some .type → r.Inherits h p → a.chain? p = some c →
    a.chain? h = some (h :: c)
  /-- There is a report about a parent if one is declared and the chain does not go on to it. -/
  reported : ∀ h, (∃ p, p.concernsParent = true ∧ (h, p) ∈ a.problems) ↔
    ∃ d, r.get? h = some d ∧ d.kind = .type ∧ d.parent ≠ none ∧ r.IsTop h
  report : ∀ h p, p.concernsParent = true → ((h, p) ∈ a.problems ↔
    ∃ d parent, r.get? h = some d ∧ d.kind = .type ∧ d.parent = some parent ∧
      p.subject = d.name ∧ r.ParentFault parent p.cause)

namespace Ancestry

variable {r : Registry} {h : Handle}

private theorem parent?_ofRegistry_eq (r : Registry) (h : Handle) :
    (ofRegistry r).parent? h = (r.get? h).bind fun d =>
      if d.kind = .type then d.parent.map (⟨·, r.parentType? h⟩) else none := by
  rw [parent?, lineage?_ofRegistry]
  cases r.get? h with
  | none => rfl
  | some d =>
    rw [Option.bind_some, Option.bind_some]
    split
    · rw [Option.bind_some, Lineage.ofType]
      dsimp only
      split <;> rfl
    · rfl

private theorem mem_parentReports_iff {p : Problem} (hp : p.concernsParent = true) :
    (h, p) ∈ (ofRegistry r).problems ↔
      ∃ d parent, r.get? h = some d ∧ d.kind = .type ∧ d.parent = some parent ∧
        p.subject = d.name ∧ r.ParentFault parent p.cause := by
  rw [mem_problems_iff, lineage?_ofRegistry]
  cases r.get? h with
  | none => simp
  | some d =>
    by_cases hkind : d.kind = .type <;> simp [hkind, Lineage.mem_ofType_problems_iff hp]

/-- A type has a chain if and only if its parents come to a type without parent. -/
private theorem exists_chain?_iff : (∃ c, (ofRegistry r).chain? h = some c) ↔
    r.kind? h = some .type ∧
      ∃ k, ReflTransGen r.Inherits h k ∧ r.kind? k = some .type ∧ r.IsTop k := by
  constructor
  · rintro ⟨c, hc⟩
    obtain ⟨hkind, hback, rfl⟩ := chain?_eq_some_iff.mp hc
    obtain ⟨k, hnone, hreach⟩ := Registry.ascent_end hback
    exact ⟨hkind, k, hreach, Registry.kind?_of_reaches hkind hreach, Registry.isTop_iff.mpr hnone⟩
  · rintro ⟨hkind, k, hreach, _, htop⟩
    obtain ⟨d, hd, _⟩ := Registry.kind?_eq_some_iff.mp hkind
    refine ⟨_, chain?_eq_some_iff.mpr ⟨hkind, ?_, rfl⟩⟩
    rw [Option.eq_none_iff_forall_ne_some]
    intro m hback
    obtain ⟨hcycle, hm, hmreach⟩ :=
      Registry.ascent_cycle (Registry.mem_handles_of_get? hd) hback
    obtain ⟨p, hp⟩ := exists_step r.inherits_rightUnique (hcycle.transGen hm) hmreach hreach
    exact htop p hp

/-- The chain of a type is the whole way up along the declared parents. There is one if and only if
that way ends, and a parent is reported if and only if one is declared and the way ends before
it. -/
theorem ofRegistry_followsParents (r : Registry) : (ofRegistry r).FollowsParents r where
  parent_name h d hd := by
    rw [parent?_ofRegistry_eq, hd, Option.bind_some]
    split
    · rw [Option.map_map]
      exact Option.map_id'
    · rfl
  parent_target h p := by
    rw [parent?_ofRegistry_eq, Registry.inherits_iff, Registry.kind?]
    cases hd : r.get? h with
    | none => simp
    | some d =>
      by_cases hkind : d.kind = .type
      · cases hparent : d.parent <;> simp [hkind, hparent, Registry.parentType?, hd]
      · simp [hkind]
  walk h hkind := by
    have hwalk := Registry.isWalk_ascent hkind
    refine ⟨_, _, hwalk, hwalk.length_le, Option.ext fun c => ?_⟩
    rw [chain?_eq_some_iff]
    by_cases hback : (r.ascent h).back = none <;> simp [hkind, hback, eq_comm]
  chain_exists h := exists_chain?_iff
  chain_exact h c hc := by
    obtain ⟨hkind, hback, rfl⟩ := chain?_eq_some_iff.mp hc
    have hwalk := Registry.isWalk_ascent hkind
    exact ⟨hwalk.head, hwalk.steps.left_of_append, hwalk.top hback, hwalk.nodup⟩
  chain_step h p c hkind hp hc :=
    Registry.chain?_of_parentType? hkind (Registry.inherits_iff.mp hp) hc
  reported h := by
    constructor
    · rintro ⟨p, hp, hmem⟩
      obtain ⟨d, parent, hd, hkind, hparent, _, hfault⟩ := (mem_parentReports_iff hp).mp hmem
      have htop := (Registry.exists_parentFault_iff hd hparent).mp ⟨_, hfault⟩
      exact ⟨d, hd, hkind, by simp [hparent], htop⟩
    · rintro ⟨d, hd, hkind, hdeclared, htop⟩
      obtain ⟨parent, hparent⟩ := Option.ne_none_iff_exists'.mp hdeclared
      obtain ⟨cause, hfault⟩ := (Registry.exists_parentFault_iff hd hparent).mpr htop
      have hp : (Problem.mk d.name cause).concernsParent = true := by
        cases hfault <;> rfl
      exact ⟨_, hp, (mem_parentReports_iff hp).mpr ⟨d, parent, hd, hkind, hparent, rfl, hfault⟩⟩
  report h p hp := mem_parentReports_iff hp

end Ancestry

end UiCatalog
