import UiCatalog.Resolution
import UiCatalog.Proofs.Ancestry.Cycles
import UiCatalog.Proofs.Graph.Components
/-!
# Contents of a catalog

A catalog has one entity for each registered definition, under its handle. What the entity and the
problems of a definition are made of is looked up here once.
-/

namespace UiCatalog

theorem Mention.target?_eq_some_iff {m : Mention} {r : Registry} {h : Handle} :
    m.target? r = some h ↔ r.find? m.name = some h ∧ ∃ k ∈ m.accepts, r.kind? h = some k := by
  rw [target?, Option.filter_eq_some_iff]
  refine and_congr_right fun _ => ?_
  cases r.kind? h <;> simp

namespace Registry

variable {r : Registry}

def graph (r : Registry) : Graph :=
  menuGraph r.links

def navigation (r : Registry) : Navigation :=
  Navigation.ofCycles r r.graph (MenuCycle.ofGraph r r.graph)

theorem graph_size (r : Registry) : r.graph.size = r.size := by
  simp [graph, menuGraph, links, Graph.size, size]

theorem links_get? (r : Registry) (h : Handle) :
    r.links[h]? = (r.get? h).map (Links.ofDefinition r) :=
  List.getElem?_map

theorem graph_targets (r : Registry) (h : Handle) :
    r.graph.targets h =
      ((r.get? h).map fun d => (Links.ofDefinition r d).childHandles).getD [] := by
  rw [graph, menuGraph, Graph.targets, List.getElem?_map, links_get?, Option.map_map]
  rfl

theorem mem_graph_targets_iff {h k : Handle} :
    k ∈ r.graph.targets h ↔ ∃ d, r.get? h = some d ∧ ∃ c ∈ d.children, r.find? c.name = some k ∧
      (r.kind? k = some .command ∨ r.kind? k = some .menu) := by
  rw [graph_targets]
  cases r.get? h with
  | none => simp
  | some d =>
    have hchild (c : Child) (i : Nat) : (Mention.child i c).target? r = some k ↔
        r.find? c.name = some k ∧ (r.kind? k = some .command ∨ r.kind? k = some .menu) := by
      rw [Mention.target?_eq_some_iff]
      simp [Mention.child]
    simp only [Option.map_some, Option.getD_some, Links.childHandles, Links.ofDefinition,
      List.mem_filterMap, List.mem_map, Prod.exists, Mention.reference, Option.some.injEq,
      exists_eq_left']
    constructor
    · rintro ⟨link, ⟨c, i, hmem, rfl⟩, htarget⟩
      exact ⟨c, List.fst_mem_of_mem_zipIdx hmem, (hchild c i).mp htarget⟩
    · rintro ⟨c, hc, hfound⟩
      obtain ⟨i, hi⟩ := List.mem_iff_getElem?.mp hc
      exact ⟨_, ⟨c, i, List.mk_mem_zipIdx_iff_getElem?.mpr hi, rfl⟩, (hchild c i).mpr hfound⟩

theorem graph_valid (r : Registry) : r.graph.Valid := by
  intro h k hk
  obtain ⟨_, _, c, _, hfind, _⟩ := mem_graph_targets_iff.mp hk
  exact (graph_size r).symm ▸ find?_lt hfind

def effectiveOf (r : Registry) (h : Handle) : Effective × List Problem :=
  Effective.ofChain r (((Ancestry.ofRegistry r).chain? h).getD [h])

theorem ofAncestry_get? (r : Registry) (h : Handle) :
    (Effective.ofAncestry r (Ancestry.ofRegistry r))[h]? =
      (r.get? h).map fun d => if d.kind = .type then some (r.effectiveOf h) else none := by
  simp only [Effective.ofAncestry, get?, List.getElem?_map, List.getElem?_zipIdx, effectiveOf]
  cases r.definitions[h]? <;> simp

theorem mem_effectiveProblems_iff {h : Handle} {p : Problem} :
    (h, p) ∈ r.effectiveProblems (Ancestry.ofRegistry r) ↔
      ∃ d, r.get? h = some d ∧ d.kind = .type ∧ p ∈ (r.effectiveOf h).2 := by
  simp only [effectiveProblems, List.mem_flatMap, List.mem_map, Prod.exists, Prod.mk.injEq]
  constructor
  · rintro ⟨found, k, hmem, q, hq, rfl, rfl⟩
    have hget := List.mk_mem_zipIdx_iff_getElem?.mp hmem
    rw [ofAncestry_get?] at hget
    obtain ⟨d, hd, hfound⟩ := Option.map_eq_some_iff.mp hget
    split at hfound
    · rename_i hkind
      subst hfound
      exact ⟨d, hd, hkind, by simpa using hq⟩
    · subst hfound
      simp at hq
  · rintro ⟨d, hd, hkind, hp⟩
    refine ⟨some (r.effectiveOf h), h, List.mk_mem_zipIdx_iff_getElem?.mpr ?_, p, by simpa using hp,
      rfl, rfl⟩
    rw [ofAncestry_get?, hd, Option.map_some, if_pos hkind]

theorem mem_linkProblems_iff {o : Options} {h : Handle} {p : Problem} :
    (h, p) ∈ r.linkProblems o ↔ ∃ d, r.get? h = some d ∧ p ∈ Links.problems r o d := by
  simp only [linkProblems, List.mem_flatMap, List.mem_map, Prod.exists, Prod.mk.injEq]
  constructor
  · rintro ⟨d, k, hmem, q, hq, rfl, rfl⟩
    exact ⟨d, List.mk_mem_zipIdx_iff_getElem?.mp hmem, hq⟩
  · rintro ⟨d, hd, hp⟩
    exact ⟨d, h, List.mk_mem_zipIdx_iff_getElem?.mpr hd, p, hp, rfl, rfl⟩

def problems (r : Registry) (o : Options) : List (Handle × Problem) :=
  (Catalog.ofRegistry o r).2

theorem problems_eq (r : Registry) (o : Options) :
    r.problems o = (Ancestry.ofRegistry r).problems ++
      r.effectiveProblems (Ancestry.ofRegistry r) ++ r.linkProblems o ++
      (MenuCycle.ofGraph r r.graph).filterMap (MenuCycle.problem? r) :=
  rfl

theorem mem_problems_iff {o : Options} {q : Handle × Problem} :
    q ∈ r.problems o ↔ q ∈ (Ancestry.ofRegistry r).problems ∨
      q ∈ r.effectiveProblems (Ancestry.ofRegistry r) ∨ q ∈ r.linkProblems o ∨
      ∃ c ∈ MenuCycle.ofGraph r r.graph, c.problem? r = some q := by
  rw [problems_eq, List.mem_append, List.mem_append, List.mem_append, List.mem_filterMap, or_assoc,
    or_assoc]

def entityOf (r : Registry) (h : Handle) (d : Definition) : Entity :=
  Entity.ofDefinition h d (Ancestry.ofRegistry r)
    (if d.kind = .type then some (r.effectiveOf h).1 else none) r.links r.navigation

theorem entities_get? (o : Options) (r : Registry) (h : Handle) :
    (Catalog.ofRegistry o r).1.entities[h]? = (r.get? h).map (r.entityOf h) := by
  have heffective : (r.effective (Ancestry.ofRegistry r))[h]? =
      (r.get? h).map fun d => if d.kind = .type then some (r.effectiveOf h).1 else none := by
    rw [effective, List.getElem?_map, ofAncestry_get?, Option.map_map]
    congr 1
    funext d
    exact apply_ite (Option.map Prod.fst) _ _ _
  have hzip : (r.definitions.zip (r.effective (Ancestry.ofRegistry r)))[h]? =
      (r.get? h).map fun d => (d, if d.kind = .type then some (r.effectiveOf h).1 else none) := by
    have hdefinition : r.definitions[h]? = r.get? h := rfl
    rw [List.zip, List.getElem?_zipWith, heffective, hdefinition]
    cases r.get? h <;> rfl
  simp only [Catalog.ofRegistry, List.getElem?_map, List.getElem?_zipIdx, hzip]
  cases r.get? h with
  | none => rfl
  | some d => simp [entityOf, navigation, graph]

end Registry

namespace Catalog

@[simp] theorem registry_ofRegistry (o : Options) (r : Registry) :
    (ofRegistry o r).1.registry = r := rfl

@[simp] theorem navigation_ofRegistry (o : Options) (r : Registry) :
    (ofRegistry o r).1.navigation = r.navigation := rfl

theorem get?_ofRegistry (o : Options) (r : Registry) (name : String) :
    (ofRegistry o r).1.get? name = (r.find? name).bind fun h => (r.get? h).map (r.entityOf h) := by
  rw [get?, registry_ofRegistry]
  congr 1
  funext h
  exact Registry.entities_get? o r h

theorem tree?_ofRegistry (o : Options) (r : Registry) (name : String) :
    (ofRegistry o r).1.tree? name = (r.find? name).bind r.navigation.tree? := by
  rw [tree?, registry_ofRegistry, navigation_ofRegistry]

end Catalog

end UiCatalog
