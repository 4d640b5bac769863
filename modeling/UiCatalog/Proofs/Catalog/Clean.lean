import UiCatalog.Proofs.Ancestry.Line
import UiCatalog.Proofs.Catalog.Contents
import UiCatalog.Proofs.Effective.Settle
import UiCatalog.Proofs.Navigation.Cycles
/-!
# When definitions have no problems with each other

Registered definitions have no problems if and only if parents are types and do not go round, no
attribute name occurs twice from a type up, no definition has problems with its links, and children
do not go round.
-/

namespace UiCatalog

open Relation

private theorem Lineage.parentProblems_eq_nil_iff {r : Registry} {subject parent : String} :
    parentProblems r subject parent = [] ↔ r.Offers parent [.type] := by
  unfold parentProblems Registry.Offers
  cases hf : r.find? parent with
  | none => simp
  | some h =>
    rw [Option.bind_some]
    cases hk : r.kind? h with
    | none => simp [hk]
    | some k => cases k <;> simp [hk]

namespace Ancestry

variable {r : Registry}

private theorem problems_eq_nil_iff_lineages :
    (ofRegistry r).problems = [] ↔
      ∀ h d, r.get? h = some d → d.kind = .type → (Lineage.ofType r h d).problems = [] := by
  simp only [List.eq_nil_iff_forall_not_mem, Prod.forall, mem_problems_iff, lineage?_ofRegistry]
  constructor
  · intro hnone h d hd hkind p hp
    exact hnone h p ⟨Lineage.ofType r h d, by simp [hd, hkind], hp⟩
  · rintro hnone h p ⟨l, hl, hp⟩
    obtain ⟨d, hd, hl⟩ := Option.bind_eq_some_iff.mp hl
    split at hl
    · rename_i hkind
      obtain rfl := Option.some.inj hl
      exact hnone h d hd hkind p hp
    · simp at hl

private theorem problems_eq_nil_iff :
    (ofRegistry r).problems = [] ↔
      (∀ h d, r.get? h = some d → d.kind = .type → ∀ parent ∈ d.parent, r.Offers parent [.type]) ∧
      ∀ h, ¬TransGen r.Inherits h h := by
  have hparent {d : Definition} :
      ((d.parent.map (Lineage.parentProblems r d.name)).getD []) = [] ↔
        ∀ parent ∈ d.parent, r.Offers parent [.type] := by
    cases d.parent <;> simp [Lineage.parentProblems_eq_nil_iff]
  simp only [problems_eq_nil_iff_lineages, Lineage.ofType_problems, List.append_eq_nil_iff, hparent]
  constructor
  · intro hnone
    refine ⟨fun h d hd hkind => (hnone h d hd hkind).1, Registry.ascents_end_iff.mp fun h hh => ?_⟩
    cases habove : r.cycleAbove? h with
    | none => exact Option.map_eq_none_iff.mp habove
    | some c =>
      -- the lowest member of the cycle is a type, and it is the one that reports
      obtain ⟨hc, _⟩ := (Registry.cycleAbove?_eq_some_iff hh).mp habove
      obtain ⟨m, l, rfl⟩ := List.exists_cons_of_ne_nil hc.cycle.ne_nil
      obtain ⟨d, hd, hkind⟩ :=
        Registry.kind?_eq_some_iff.mp (Registry.cycle_find?_name hc.cycle List.mem_cons_self).2
      have hm : m ∈ r.handles := Registry.mem_handles_of_get? hd
      have hcycle := (Registry.cycleAbove?_eq_some_iff hm).mpr
        ⟨hc, Registry.leadsInto_of_mem List.mem_cons_self⟩
      have hreport := (hnone m d hd hkind).2
      rw [hcycle] at hreport
      simp at hreport
  · rintro ⟨hparents, hacyclic⟩ h d hd hkind
    have hh : h ∈ r.handles := Registry.mem_handles_of_get? hd
    have habove : r.cycleAbove? h = none :=
      Option.map_eq_none_iff.mpr (Registry.ascents_end_iff.mpr hacyclic h hh)
    exact ⟨hparents h d hd hkind, by rw [habove]⟩

end Ancestry

private theorem MenuCycle.problems_eq_nil_iff {r : Registry} {g : Graph} (hg : g.Valid) :
    (ofGraph r g).filterMap (problem? r) = [] ↔ ∀ h, ¬TransGen g.Edge h h := by
  rw [List.filterMap_eq_nil_iff, ofGraph, List.forall_mem_map]
  constructor
  · intro hnone h hround
    obtain ⟨c, hc, _⟩ := (Graph.mem_cyclicComponents_flatten_iff hg).mpr hround
    obtain ⟨_, _, _, _, _, hproblem⟩ := problem?_ofComponent (r := r) hg hc
    exact absurd (hnone c hc) (by simp [hproblem])
  · intro hacyclic c hc
    obtain ⟨start, _, _, hstart, _, _⟩ := problem?_ofComponent (r := r) hg hc
    exact absurd ((Graph.mem_cyclicComponents_flatten_iff hg).mp ⟨c, hc, hstart⟩) (hacyclic start)

namespace Registry

variable {r : Registry} {o : Options}

private theorem effectiveProblems_eq_nil_iff :
    r.effectiveProblems (Ancestry.ofRegistry r) = [] ↔
      ∀ h, r.kind? h = some .type → (r.effectiveOf h).2 = [] := by
  simp only [List.eq_nil_iff_forall_not_mem, Prod.forall, mem_effectiveProblems_iff,
    kind?_eq_some_iff]
  constructor
  · rintro hnone h ⟨d, hd, hkind⟩ p hp
    exact hnone h p ⟨d, hd, hkind, hp⟩
  · rintro hnone h p ⟨d, hd, hkind, hp⟩
    exact hnone h ⟨d, hd, hkind⟩ p hp

private theorem effectiveOf_of_isLine {h : Handle} {l : List Handle}
    (hkind : r.kind? h = some .type) (hline : IsLine r.parentType? (h :: l)) :
    r.effectiveOf h = Effective.ofChain r (h :: l) := by
  rw [effectiveOf, chain?_eq_some_iff_isLine.mpr ⟨hkind, hline⟩, Option.getD_some]

/-- If parents do not go round, then types have no problems with their attributes if and only if no
name occurs twice from a type up. -/
private theorem effectiveOf_problems_iff (hacyclic : ∀ h, ¬TransGen r.Inherits h h) :
    (∀ h, r.kind? h = some .type → (r.effectiveOf h).2 = []) ↔
      ∀ h l, r.kind? h = some .type → IsLine r.parentType? (h :: l) →
        (Effective.names ((h :: l).reverse.flatMap (Effective.declared r))).Nodup := by
  constructor
  · intro hnone h l hkind hline
    induction l generalizing h with
    | nil =>
      have hproblems := hnone h hkind
      rw [effectiveOf_of_isLine hkind hline] at hproblems
      have habove : (Effective.names
          (([] : List Handle).reverse.flatMap (Effective.declared r))).Nodup := List.nodup_nil
      exact (Effective.ofChain_problems_eq_nil_iff habove).mp hproblems
    | cons p ps ih =>
      have hproblems := hnone h hkind
      rw [effectiveOf_of_isLine hkind hline] at hproblems
      cases hline with
      | step hp hps =>
        have habove := ih p (kind?_of_parentType? hp) hps
        exact (Effective.ofChain_problems_eq_nil_iff habove).mp hproblems
  · intro hnodup h hkind
    obtain ⟨d, hd, _⟩ := kind?_eq_some_iff.mp hkind
    have hh : h ∈ r.handles := mem_handles_of_get? hd
    have hline : IsLine r.parentType? (r.ascent h).path :=
      IsLine.ascend_path (ascents_end_iff.mpr hacyclic h hh)
    obtain ⟨l, hpath⟩ := ascent_path_eq_cons hh
    rw [hpath] at hline
    have hall := hnodup h l hkind hline
    have habove : (Effective.names (l.reverse.flatMap (Effective.declared r))).Nodup := by
      rw [List.reverse_cons, List.flatMap_append, Effective.names, List.map_append] at hall
      exact hall.of_append_left
    rw [effectiveOf_of_isLine hkind hline]
    exact (Effective.ofChain_problems_eq_nil_iff habove).mpr hall

private theorem linkProblems_eq_nil_iff :
    r.linkProblems o = [] ↔ ∀ d ∈ r.definitions, Links.problems r o d = [] := by
  simp only [List.eq_nil_iff_forall_not_mem, Prod.forall, mem_linkProblems_iff]
  constructor
  · intro hnone d hd p hp
    obtain ⟨h, hh⟩ := List.mem_iff_getElem?.mp hd
    exact hnone h p ⟨d, hh, hp⟩
  · rintro hnone h p ⟨d, hd, hp⟩
    exact hnone d (List.mem_of_getElem? hd) p hp

/-- What registered definitions need for nothing to be reported about them. -/
theorem problems_eq_nil_iff :
    r.problems o = [] ↔
      (∀ h d, r.get? h = some d → d.kind = .type → ∀ parent ∈ d.parent, r.Offers parent [.type]) ∧
      (∀ h, ¬TransGen r.Inherits h h) ∧
      (∀ h l, r.kind? h = some .type → IsLine r.parentType? (h :: l) →
        (Effective.names ((h :: l).reverse.flatMap (Effective.declared r))).Nodup) ∧
      (∀ d ∈ r.definitions, Links.problems r o d = []) ∧
      ∀ h, ¬TransGen r.graph.Edge h h := by
  have hparts : r.problems o = [] ↔ (Ancestry.ofRegistry r).problems = [] ∧
      r.effectiveProblems (Ancestry.ofRegistry r) = [] ∧ r.linkProblems o = [] ∧
      (MenuCycle.ofGraph r r.graph).filterMap (MenuCycle.problem? r) = [] := by
    change _ ++ _ ++ _ ++ _ = [] ↔ _
    rw [List.append_eq_nil_iff, List.append_eq_nil_iff, List.append_eq_nil_iff, and_assoc,
      and_assoc]
    rfl
  rw [hparts, Ancestry.problems_eq_nil_iff, effectiveProblems_eq_nil_iff, linkProblems_eq_nil_iff,
    MenuCycle.problems_eq_nil_iff r.graph_valid, and_assoc]
  refine and_congr_right fun _ => and_congr_right fun hacyclic => ?_
  rw [effectiveOf_problems_iff hacyclic]

end Registry

end UiCatalog
