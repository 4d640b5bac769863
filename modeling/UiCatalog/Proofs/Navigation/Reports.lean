import UiCatalog.Proofs.Graph.BreadthFirst
import UiCatalog.Proofs.Navigation.Cycles
/-!
# Reports of menu cycles

Each component of the menu graph that contains a cycle is reported once, with all its members and
with a cycle through the member of the lowest name that is as short as any closed walk through it.
-/

namespace UiCatalog.MenuCycle

open Relation

variable {r : Registry} {g : Graph}

/-- What a report says of the graph. -/
structure Reports (r : Registry) (g : Graph) (c : MenuCycle) : Prop where
  /-- The members are on cycles, and they are all the nodes that one of them reaches and that reach
  it. -/
  members : ∀ v ∈ c.members, TransGen g.Edge v v ∧
    ∀ u, u ∈ c.members ↔ g.Reaches v u ∧ g.Reaches u v
  ascending : c.members.Pairwise (· < ·)
  cycle : IsCycle g.Edge c.path
  /-- The path starts at a member with the lowest name, and the search from there finds it. -/
  lowest : ∀ start ∈ c.path.head?,
    start ∈ c.members ∧ (∀ v ∈ c.members, r.name start ≤ r.name v) ∧
    g.closing start (c.members.erase start) [[start]] = some c.path
  shortest : ∀ start ∈ c.path.head?, ∀ walk, g.IsClosedWalk walk → start ∈ walk →
    c.path.length ≤ walk.length

private theorem component_pairwise_lt {members : List Handle} (hc : members ∈ g.components) :
    members.Pairwise (· < ·) := by
  have hnodes : g.nodes.Pairwise (· < ·) := List.pairwise_lt_range
  rw [Graph.component_eq_filter hc]
  exact hnodes.filter _

private theorem ofComponent_reports (hg : g.Valid) {members : List Handle}
    (hc : members ∈ g.cyclicComponents) : Reports r g (ofComponent r g members) := by
  obtain ⟨hcomponent, hcycle⟩ := (Graph.mem_cyclicComponents_iff hg).mp hc
  obtain ⟨start, way, hlow, hway, heq, hhead⟩ := exists_ofComponent (r := r) hg hc
  obtain ⟨hstart, hle⟩ := Registry.lowest?_eq_some hlow
  obtain ⟨way', hway', _, hround, hshortest⟩ := Graph.exists_shortest hg hc hstart
  obtain rfl : way' = way := Option.some.inj (hway'.symm.trans hway)
  rw [heq]
  refine ⟨fun v hv => ⟨(Graph.hasCycle_iff hg hcomponent hv).mp hcycle, fun u => ?_⟩,
    component_pairwise_lt hcomponent, hround, fun first hfirst => ?_, fun first hfirst => ?_⟩
  · exact Graph.mem_component_iff hg hcomponent hv
  · obtain rfl : start = first := Option.some.inj (hhead.symm.trans hfirst)
    exact ⟨hstart, hle, hway⟩
  · obtain rfl : start = first := Option.some.inj (hhead.symm.trans hfirst)
    exact hshortest

private theorem ofGraph_pairwise (r : Registry) (g : Graph) : (ofGraph r g).Pairwise fun c c' =>
    ∀ u ∈ c.members.head?, ∀ v ∈ c'.members.head?, u < v := by
  have hnodes : (g.nodes.map some).Pairwise fun a b => ∀ u ∈ a, ∀ v ∈ b, u < v := by
    rw [List.pairwise_map]
    exact List.pairwise_lt_range.imp fun hlt u hu v hv => Option.some.inj hu ▸
      Option.some.inj hv ▸ hlt
  have hheads := hnodes.sublist (Graph.cyclicComponents_heads g)
  rw [List.pairwise_map] at hheads
  rw [ofGraph, List.pairwise_map]
  simpa only [ofComponent_members] using hheads

/-- The reports of a graph are one for each component that contains a cycle, in the order of their
lowest handles. Each has all members of its component and a shortest cycle through the member with
the lowest name, which the search always finds. -/
theorem ofGraph_reports (r : Registry) {g : Graph} (hg : g.Valid) :
    (∀ v, TransGen g.Edge v v → ∃! c, c ∈ ofGraph r g ∧ v ∈ c.members) ∧
    (∀ c ∈ ofGraph r g, Reports r g c) ∧
    (ofGraph r g).Pairwise fun c c' => ∀ u ∈ c.members.head?, ∀ v ∈ c'.members.head?, u < v := by
  refine ⟨fun v hv => ?_, fun c hc => ?_, ofGraph_pairwise r g⟩
  · obtain ⟨members, hc, hmem⟩ := (Graph.mem_cyclicComponents_flatten_iff hg).mpr hv
    have hmem' : v ∈ (ofComponent r g members).members := by rwa [ofComponent_members]
    refine ⟨ofComponent r g members, ⟨List.mem_map.mpr ⟨members, hc, rfl⟩, hmem'⟩, ?_⟩
    rintro _ ⟨hlisted, hv'⟩
    obtain ⟨members', hc', rfl⟩ := List.mem_map.mp hlisted
    rw [ofComponent_members] at hv'
    rw [Graph.component_eq_of_mem hg ((Graph.mem_cyclicComponents_iff hg).mp hc').1
      ((Graph.mem_cyclicComponents_iff hg).mp hc).1 hv' hmem]
  · obtain ⟨members, hmembers, rfl⟩ := List.mem_map.mp hc
    exact ofComponent_reports hg hmembers

/-- Of three menus on two cycles the one with the lowest name has the shorter way around; a fourth
one links to itself. -/
theorem ofGraph_reports_chord :
    let r : Registry := ⟨["file", "edit", "view", "tools"].map (.bare .menu · none)⟩
    let g : Graph := ⟨[[2, 1, 1], [3, 2, 0], [0], [3]]⟩
    g.Valid ∧ ofGraph r g = [⟨[1, 0], [0, 1, 2]⟩, ⟨[3], [3]⟩] ∧
      ∀ walk, g.IsClosedWalk walk → 1 ∈ walk → 2 ≤ walk.length := by
  intro r g
  have hvalid : g.Valid := by decide
  have hcycles : ofGraph r g = [⟨[1, 0], [0, 1, 2]⟩, ⟨[3], [3]⟩] := by decide +kernel
  obtain ⟨_, hreports, _⟩ := ofGraph_reports r hvalid
  have hfirst := hreports ⟨[1, 0], [0, 1, 2]⟩ (by simp [hcycles])
  exact ⟨hvalid, hcycles, hfirst.shortest 1 rfl⟩

end UiCatalog.MenuCycle
