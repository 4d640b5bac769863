import UiCatalog.Proofs.Navigation.Cycles
import UiCatalog.Proofs.Renumbering.Links
/-!
# Navigation in renumbered registries

What is cyclic is decided by the edges, and a cycle is looked for from the member with the lowest
name along links in their own order. So the reported cycles, the roots and the trees follow a
renumbering.
-/

namespace UiCatalog.Renumbers

open Relation

variable {σ : Equiv.Perm Handle} {r r' : Registry}

theorem isCyclic (hσ : Renumbers σ r r') (h : Handle) :
    r'.navigation.isCyclic (σ h) = r.navigation.isCyclic h := by
  rw [Bool.eq_iff_iff, Registry.navigation, Registry.navigation,
    Navigation.isCyclic_ofCycles r' r'.graph_valid, Navigation.isCyclic_ofCycles r r.graph_valid,
    hσ.graph.transGen_iff]

/-- A component with a cycle is reported on the same entity and with the same names. -/
theorem menuCycle_problem? (hσ : Renumbers σ r r') {c : MenuCycle} {h : Handle} {p : Problem}
    (hc : c ∈ MenuCycle.ofGraph r r.graph) (hp : c.problem? r = some (h, p)) :
    ∃ c' ∈ MenuCycle.ofGraph r' r'.graph, c'.problem? r' = some (σ h, p) := by
  obtain ⟨members, hmembers, rfl⟩ := List.mem_map.mp hc
  obtain ⟨members', hmembers', hperm⟩ :=
    hσ.graph.exists_cyclicComponent r.graph_valid r'.graph_valid hmembers
  obtain ⟨start, way, hlow, _, hway, hproblem⟩ :=
    MenuCycle.problem?_ofComponent (r := r) r.graph_valid hmembers
  obtain ⟨start', way', hlow', _, hway', hproblem'⟩ :=
    MenuCycle.problem?_ofComponent (r := r') r'.graph_valid hmembers'
  refine ⟨_, List.mem_map_of_mem hmembers', ?_⟩
  have hcomp' := ((Graph.mem_cyclicComponents_iff r'.graph_valid).mp hmembers').1
  have hlt (h : Handle) (hh : h ∈ members') : h < r'.size :=
    r'.graph_size ▸ Graph.mem_component_lt hcomp' hh
  have hstart : start' = σ start := by
    rw [hσ.distinct'.lowest?_perm hperm hlt, hσ.lowest?, hlow] at hlow'
    exact (Option.some.inj hlow').symm
  subst hstart
  have hfresh : (members'.erase (σ start)).Perm ((members.erase start).map σ) := by
    rw [List.map_erase σ.injective]
    exact hperm.erase _
  have hclosing := hσ.graph.closing_map start (members.erase start) [[start]]
  rw [hway, ← Graph.closing_congr _ hfresh] at hclosing
  obtain rfl : way' = way.map σ := Option.some.inj (hway'.symm.trans hclosing)
  rw [hproblem] at hp
  obtain ⟨rfl, rfl⟩ := Prod.mk.inj (Option.some.inj hp)
  rw [hproblem', hσ.name, hσ.map_name]

private theorem shownChildren (hσ : Renumbers σ r r') (h : Handle) :
    r'.navigation.shownChildren (σ h) = (r.navigation.shownChildren h).map σ := by
  have htargets : r'.navigation.graph.targets (σ h) = (r.navigation.graph.targets h).map σ :=
    hσ.graph h
  rw [Navigation.shownChildren, htargets, List.filter_map, Navigation.shownChildren]
  congr 2
  funext k
  rw [Function.comp_apply, hσ.isCyclic]

private theorem size (hσ : Renumbers σ r r') : r'.size = r.size := by
  simpa [Registry.handles] using hσ.handles.length_eq

theorem tree? (hσ : Renumbers σ r r') (h : Handle) :
    (r'.navigation.tree? (σ h)).map (Array.map (Graph.TreeEntry.named r')) =
      (r.navigation.tree? h).map (Array.map (Graph.TreeEntry.named r)) := by
  have hsize : r'.navigation.graph.size = r'.size := r'.graph_size
  have hsize' : r.navigation.graph.size = r.size := r.graph_size
  have hle : r'.size ≤ σ h ↔ r.size ≤ h := by
    rw [← Nat.not_lt, ← Nat.not_lt, hσ.lt_size_iff]
  simp only [Navigation.tree?, hσ.isCyclic, hsize, hsize', hle]
  split
  · rfl
  · rw [hσ.size, Graph.unfold_map hσ.shownChildren, Option.map_some, Option.map_some, Array.map_map]
    congr 2
    funext e
    simp [Graph.TreeEntry.named, Graph.TreeEntry.renumber, hσ.name]

end UiCatalog.Renumbers
