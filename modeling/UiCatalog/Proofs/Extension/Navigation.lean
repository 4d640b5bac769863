import UiCatalog.Proofs.Catalog.Problems
import UiCatalog.Proofs.Extension.Links
import UiCatalog.Proofs.Navigation.Trees
/-!
# Menus without the new one

No cycle of children goes through the new definition and another one, so what lies on a cycle, what
is reported about it and what is shown below each of the others stay as they are.
-/

namespace UiCatalog

namespace MenuCycle

variable {r r' : Registry} {g g' : Graph} {c : List Handle}

private theorem ofComponent_congr {P : Handle → Prop}
    (htargets : ∀ v, P v → g'.targets v = g.targets v) (hlowest : r'.lowest? c = r.lowest? c)
    (hc : ∀ v ∈ c, P v) :
    ofComponent r' g' c = ofComponent r g c ∧ ∀ v ∈ (ofComponent r g c).path, P v := by
  unfold ofComponent
  rw [hlowest]
  cases hlow : r.lowest? c with
  | none => exact ⟨rfl, hc⟩
  | some start =>
    have hstart := hc start (Registry.lowest?_eq_some hlow).1
    have hfresh : ∀ v ∈ c.erase start, P v := fun v hv => hc v (List.mem_of_mem_erase hv)
    have hqueue : ∀ way ∈ [[start]], ∀ v ∈ way, P v := by simpa using hstart
    obtain ⟨hclosing, hway⟩ := Graph.closing_congr_targets htargets start hfresh hqueue
    dsimp only [Graph.shortestCycle]
    rw [hclosing]
    refine ⟨rfl, ?_⟩
    cases hfound : g.closing start (c.erase start) [[start]] with
    | none => exact hc
    | some way => exact hway way hfound

end MenuCycle

private theorem Registry.mem_of_menuCycle_problem? {r : Registry} {c : List Handle}
    {q : Handle × Problem} (hc : c ∈ r.graph.cyclicComponents)
    (hq : (MenuCycle.ofComponent r r.graph c).problem? r = some q) : q.1 ∈ c := by
  obtain ⟨start, _, _, hstart, _, hproblem⟩ :=
    MenuCycle.problem?_ofComponent (r := r) r.graph_valid hc
  obtain rfl := Option.some.inj (hproblem.symm.trans hq)
  exact hstart

namespace Registry.Unknown

open Relation

variable {r : Registry} {d : Definition} {h : Handle}

theorem isCyclic (hd : r.Unknown d) (hne : h ≠ r.size) :
    (r.extend d).navigation.isCyclic h = r.navigation.isCyclic h := by
  rw [← graph_size] at hne
  rw [Bool.eq_iff_iff, navigation, navigation,
    Navigation.isCyclic_ofCycles (r.extend d) (r.extend d).graph_valid,
    Navigation.isCyclic_ofCycles r r.graph_valid, hd.graph_extends.transGen_iff hne]

private theorem shownChildren (hd : r.Unknown d) (hne : h ≠ r.size) :
    (r.extend d).navigation.shownChildren h = r.navigation.shownChildren h := by
  have htargets : (r.extend d).graph.targets h = r.graph.targets h :=
    hd.graph_extends.targets h (by rwa [graph_size])
  change ((r.extend d).graph.targets h).filter _ = (r.graph.targets h).filter _
  rw [htargets]
  refine List.filter_congr fun k hk => ?_
  have hlt : k < r.size := r.graph_size ▸ r.graph_valid h k hk
  rw [hd.isCyclic hlt.ne]

/-- What is shown below another definition never gets to the new one. -/
theorem tree? (hd : r.Unknown d) (hne : h ≠ r.size) :
    (r.extend d).navigation.tree? h = r.navigation.tree? h := by
  have hsize : r.navigation.graph.size = r.size := r.graph_size
  have hsize' : (r.extend d).navigation.graph.size = r.size + 1 := by
    rw [← size_extend r d]
    exact (r.extend d).graph_size
  have hbound : r.size + 1 ≤ h ↔ r.size ≤ h :=
    ⟨Nat.le_of_succ_le, fun hle => Nat.lt_of_le_of_ne hle hne.symm⟩
  simp only [Navigation.tree?, hd.isCyclic hne, hsize, hsize', hbound]
  by_cases hnone : r.navigation.isCyclic h = true ∨ r.size ≤ h
  · rw [if_pos hnone, if_pos hnone]
  · rw [if_neg hnone, if_neg hnone]
    congr 1
    apply Graph.unfold_congr
    · exact Navigation.not_transGen_below r.graph_valid
    · rw [← graph_size]
      exact Navigation.lt_size_of_mem_shownChildren r.graph_valid
    · exact Nat.le_succ r.size
    · exact fun v hv => hd.shownChildren (Nat.ne_of_lt hv)
    · exact Nat.not_le.mp (not_or.mp hnone).2

private theorem menuCycle_problem? (hd : r.Unknown d) {c : List Handle}
    (hc : c ∈ r.graph.cyclicComponents) :
    (MenuCycle.ofComponent (r.extend d) (r.extend d).graph c).problem? (r.extend d) =
      (MenuCycle.ofComponent r r.graph c).problem? r := by
  have hcomp := ((Graph.mem_cyclicComponents_iff r.graph_valid).mp hc).1
  have hmembers : ∀ v ∈ c, v ≠ r.size := fun v hv =>
    Nat.ne_of_lt (r.graph_size ▸ Graph.mem_component_lt hcomp hv)
  have htargets : ∀ v, v ≠ r.size → (r.extend d).graph.targets v = r.graph.targets v :=
    fun v hv => hd.graph_extends.targets v (by rwa [graph_size])
  obtain ⟨heq, hpath⟩ := MenuCycle.ofComponent_congr htargets (lowest?_extend d hmembers) hmembers
  rw [heq, MenuCycle.problem?, MenuCycle.problem?, map_name_extend d hpath]
  refine Option.map_congr fun first hfirst => ?_
  rw [name_extend d (hpath first (List.mem_of_mem_head? hfirst))]

/-- Besides the cycles of others at most one is reported, and that on the new definition. -/
theorem menuCycle_problems (hd : r.Unknown d) :
    ((MenuCycle.ofGraph (r.extend d) (r.extend d).graph).filterMap
        (MenuCycle.problem? (r.extend d))).filter (·.1 ≠ r.size) =
      (MenuCycle.ofGraph r r.graph).filterMap (MenuCycle.problem? r) := by
  obtain ⟨new, hcycles, hnew⟩ := hd.graph_extends.cyclicComponents_eq
  let reported (r : Registry) (cs : List (List Handle)) : List (Handle × Problem) :=
    (cs.map (MenuCycle.ofComponent r r.graph)).filterMap (MenuCycle.problem? r)
  have hold : reported (r.extend d) r.graph.cyclicComponents =
      reported r r.graph.cyclicComponents := by
    simp only [reported, List.filterMap_map]
    exact List.filterMap_congr fun c hc => hd.menuCycle_problem? hc
  have hstay : ∀ q ∈ reported r r.graph.cyclicComponents, q.1 ≠ r.size := by
    rintro ⟨h, p⟩ hq
    obtain ⟨c, hc, hp⟩ := List.mem_filterMap.mp hq
    exact Nat.ne_of_lt (report_of_menuCycle_problem? hc hp).1
  have hgone : ∀ q ∈ reported (r.extend d) new.toList, q.1 = r.size := by
    intro q hq
    obtain ⟨_, hmem, hp⟩ := List.mem_filterMap.mp hq
    obtain ⟨c, hc, rfl⟩ := List.mem_map.mp hmem
    have hcyclic : c ∈ (r.extend d).graph.cyclicComponents :=
      hcycles ▸ List.mem_append_right _ hc
    rw [← graph_size]
    exact hnew c (Option.mem_toList.mp hc) q.1 (mem_of_menuCycle_problem? hcyclic hp)
  change (reported (r.extend d) (r.extend d).graph.cyclicComponents).filter _ =
    reported r r.graph.cyclicComponents
  have hsplit : reported (r.extend d) (r.extend d).graph.cyclicComponents =
      reported r r.graph.cyclicComponents ++ reported (r.extend d) new.toList := by
    rw [← hold, hcycles]
    simp only [reported, List.map_append, List.filterMap_append]
  rw [hsplit]
  exact filter_append_eq_left (fun q hq => decide_eq_true (hstay q hq))
    fun q hq => decide_eq_false (not_not.mpr (hgone q hq))

end Registry.Unknown

end UiCatalog
