import UiCatalog.Navigation
import UiCatalog.Proofs.Graph.ShortestCycle
import UiCatalog.Proofs.Registry.Lookup
/-!
# Cycles of the menu graph

What lies on a cycle of links is exactly what is marked. Each component with a cycle has one report,
on its member with the lowest name.
-/

namespace UiCatalog

open Relation

namespace MenuCycle

variable {r : Registry} {g : Graph}

/-- A component with a cycle is reported by a cycle from its member with the lowest name on. -/
theorem exists_ofComponent (hg : g.Valid) {members : List Handle}
    (hc : members ∈ g.cyclicComponents) :
    ∃ start way, r.lowest? members = some start ∧
      g.closing start (members.erase start) [[start]] = some way ∧
      ofComponent r g members = ⟨way, members⟩ ∧ way.head? = some start := by
  have hne := Graph.component_ne_nil hg ((Graph.mem_cyclicComponents_iff hg).mp hc).1
  cases hlow : r.lowest? members with
  | none => exact absurd (Registry.lowest?_eq_none_iff.mp hlow) hne
  | some start =>
    obtain ⟨hstart, _⟩ := Registry.lowest?_eq_some hlow
    obtain ⟨way, hway, hhead⟩ := Graph.exists_closing hg hc hstart
    refine ⟨start, way, rfl, hway, ?_, hhead⟩
    simp [ofComponent, hlow, Graph.shortestCycle, hway]

theorem ofComponent_members (r : Registry) (g : Graph) (members : List Handle) :
    (ofComponent r g members).members = members := by
  unfold ofComponent
  split <;> rfl

/-- What is reported about a component with a cycle. -/
theorem problem?_ofComponent (hg : g.Valid) {members : List Handle}
    (hc : members ∈ g.cyclicComponents) :
    ∃ start way, r.lowest? members = some start ∧ start ∈ members ∧
      g.closing start (members.erase start) [[start]] = some way ∧
      (ofComponent r g members).problem? r =
        some (start, ⟨r.name start, .cyclicMenuGraph (way.map r.name)⟩) := by
  obtain ⟨start, way, hlow, hway, heq, hhead⟩ := exists_ofComponent (r := r) hg hc
  refine ⟨start, way, hlow, (Registry.lowest?_eq_some hlow).1, hway, ?_⟩
  simp [problem?, heq, hhead]

end MenuCycle

namespace Navigation

theorem isCyclic_ofCycles (r : Registry) {g : Graph} (hg : g.Valid) (h : Handle) :
    (ofCycles r g (MenuCycle.ofGraph r g)).isCyclic h ↔ TransGen g.Edge h h := by
  rw [← Graph.mem_cyclicComponents_flatten_iff hg]
  simp [isCyclic, ofCycles, MenuCycle.ofGraph, List.mem_flatMap, MenuCycle.ofComponent_members]

private theorem isCyclic_iff {r : Registry} {g : Graph} {cycles : List MenuCycle} {h : Handle} :
    (ofCycles r g cycles).isCyclic h = true ↔ h ∈ cycles.flatMap MenuCycle.members :=
  decide_eq_true_iff

/-- The pass through a graph splits its nodes into the classes that reach each other, with no more
numbers than there are nodes, so that exactly what has a way of one or more links back to itself is
marked as cyclic. -/
theorem stronglyConnected_isCyclic (r : Registry) {g : Graph} (hg : g.Valid) :
    g.Partitions g.stronglyConnected ∧ g.pass.counter ≤ g.size ∧
      ∀ v, (ofCycles r g (MenuCycle.ofGraph r g)).isCyclic v = true ↔ TransGen g.Edge v v :=
  ⟨Graph.partitions_stronglyConnected hg, Graph.Pass.counter_pass_le g, isCyclic_ofCycles r hg⟩

/-- Of two menus that link to each other one has its link twice and the other has one more, to a
menu that links to itself and to which a fourth one links. -/
theorem stronglyConnected_isCyclic_crossing :
    let r : Registry := ⟨["file", "edit", "view", "tools"].map (.bare .menu · none)⟩
    let g : Graph := ⟨[[1, 1], [0, 2], [2], [2]]⟩
    g.Valid ∧ g.Partitions [[3], [1, 0], [2]] ∧
      (ofCycles r g (MenuCycle.ofGraph r g)).cyclic = [0, 1, 2] ∧
        ∀ v, TransGen g.Edge v v ↔ v ∈ [0, 1, 2] := by
  intro r g
  have hvalid : g.Valid := by decide
  have hfound : g.stronglyConnected = [[3], [1, 0], [2]] := by decide +kernel
  have hcyclic : (ofCycles r g (MenuCycle.ofGraph r g)).cyclic = [0, 1, 2] := by decide +kernel
  obtain ⟨hpartitions, _, hmarked⟩ := stronglyConnected_isCyclic r hvalid
  refine ⟨hvalid, hfound ▸ hpartitions, hcyclic, fun v => ?_⟩
  rw [← hmarked v, isCyclic, hcyclic, decide_eq_true_iff]

/-- A root is a command or menu that is not cyclic and that only cyclic entities link to. -/
theorem mem_roots_iff {r : Registry} {g : Graph} {cycles : List MenuCycle} {h : Handle} :
    h ∈ (ofCycles r g cycles).roots ↔ (∃ k, r.kind? h = some k ∧ k.isNavigable) ∧
      (ofCycles r g cycles).isCyclic h = false ∧
      ∀ u, g.Edge u h → (ofCycles r g cycles).isCyclic u = true := by
  have hreferenced : h ∉ (g.nodes.filter (· ∉ cycles.flatMap MenuCycle.members)).flatMap g.targets ↔
      ∀ u, g.Edge u h → u ∈ cycles.flatMap MenuCycle.members := by
    rw [List.mem_flatMap, not_exists]
    refine forall_congr' fun u => ?_
    rw [List.mem_filter, Graph.mem_nodes]
    constructor
    · intro hnot hedge
      by_contra hu
      exact hnot ⟨⟨hedge.lt_size, by simpa using hu⟩, hedge⟩
    · rintro hcyclic ⟨⟨_, hu⟩, hedge⟩
      exact absurd (hcyclic hedge) (by simpa using hu)
  have hkind : (r.kind? h).any Kind.isNavigable ↔ ∃ k, r.kind? h = some k ∧ k.isNavigable := by
    cases r.kind? h <;> simp
  have hhandle : (∃ k, r.kind? h = some k ∧ k.isNavigable) → h ∈ r.handles := by
    rintro ⟨k, hk, _⟩
    obtain ⟨d, hd, _⟩ := Registry.kind?_eq_some_iff.mp hk
    exact Registry.mem_handles_of_get? hd
  have hroot : h ∈ (ofCycles r g cycles).roots ↔ h ∈ r.handles ∧
      ((∃ k, r.kind? h = some k ∧ k.isNavigable) ∧ h ∉ cycles.flatMap MenuCycle.members) ∧
      ∀ u, g.Edge u h → u ∈ cycles.flatMap MenuCycle.members := by
    simp only [ofCycles, rootsOf, List.mem_filter, Bool.and_eq_true, decide_eq_true_eq, hreferenced,
      hkind]
  rw [hroot, ← Bool.not_eq_true]
  simp only [isCyclic_iff]
  exact ⟨fun ⟨_, ⟨hk, hnot⟩, hlinks⟩ => ⟨hk, hnot, hlinks⟩,
    fun ⟨hk, hnot, hlinks⟩ => ⟨hhandle hk, ⟨hk, hnot⟩, hlinks⟩⟩

theorem roots_nodup (r : Registry) (g : Graph) (cycles : List MenuCycle) :
    (ofCycles r g cycles).roots.Nodup :=
  r.nodup_handles.filter _

end Navigation

end UiCatalog
