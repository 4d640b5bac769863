import UiCatalog.Proofs.Graph.Unfolding
import UiCatalog.Proofs.Navigation.Cycles
/-!
# What is shown below an entity

Children that are shown are not cyclic, so nothing that is shown stands below itself. Hence the tree
of an entity lists exactly what can be reached from it by shown children, and from every entity that
is not cyclic such a way leads up to a root.
-/

namespace UiCatalog.Navigation

open Relation UiCatalog.Graph

variable {r : Registry} {g : Graph}

abbrev ofGraph (r : Registry) (g : Graph) : Navigation :=
  ofCycles r g (MenuCycle.ofGraph r g)

theorem below_shownChildren_iff {n : Navigation} {u v : Handle} :
    Below n.shownChildren u v ↔ n.graph.Edge u v ∧ n.isCyclic v = false := by
  simp [Below, shownChildren, Edge, List.mem_filter]

theorem not_transGen_below (hg : g.Valid) (v : Handle) :
    ¬TransGen (Below (ofGraph r g).shownChildren) v v := by
  intro hround
  have hedges : TransGen g.Edge v v :=
    hround.lift id fun _ _ hbelow => (below_shownChildren_iff.mp hbelow).1
  obtain ⟨u, _, hlast⟩ := TransGen.tail'_iff.mp hround
  have hcyclic := (isCyclic_ofCycles r hg v).mpr hedges
  simp [(below_shownChildren_iff.mp hlast).2] at hcyclic

theorem lt_size_of_mem_shownChildren (hg : g.Valid) (u : Handle) :
    ∀ v ∈ (ofGraph r g).shownChildren u, v < g.size := by
  intro v hv
  exact hg u v (below_shownChildren_iff.mp hv).1

theorem tree?_eq_some_iff {n : Navigation} {h : Handle} {t : Array TreeEntry} :
    n.tree? h = some t ↔
      n.isCyclic h = false ∧ h < n.graph.size ∧ t = unfold n.shownChildren n.graph.size h := by
  unfold tree?
  by_cases hnone : n.isCyclic h = true ∨ n.graph.size ≤ h
  · rw [if_pos hnone]
    simp only [reduceCtorEq, false_iff, not_and]
    intro hcyclic hlt
    rcases hnone with htrue | hle
    · simp [hcyclic] at htrue
    · exact absurd hlt (Nat.not_lt.mpr hle)
  · rw [if_neg hnone]
    obtain ⟨hcyclic, hlt⟩ := not_or.mp hnone
    rw [Bool.not_eq_true] at hcyclic
    simp only [Option.some.injEq, hcyclic, Nat.not_le.mp hlt, true_and]
    exact eq_comm

/-- A tree lists its root and what is shown below it. -/
theorem exists_tree?_entry_iff (hg : g.Valid) {h u : Handle} {t : Array TreeEntry}
    (ht : (ofGraph r g).tree? h = some t) :
    (∃ e ∈ t, e.node = u) ↔ ReflTransGen (Below (ofGraph r g).shownChildren) h u := by
  obtain ⟨_, hlt, rfl⟩ := tree?_eq_some_iff.mp ht
  exact exists_entry_node_iff (not_transGen_below hg) (lt_size_of_mem_shownChildren hg) hlt

theorem exists_tree?_entry_depth_iff (hg : g.Valid) {h u : Handle} {t : Array TreeEntry}
    (ht : (ofGraph r g).tree? h = some t) :
    (∃ e ∈ t, 1 ≤ e.depth ∧ e.node = u) ↔ TransGen (Below (ofGraph r g).shownChildren) h u := by
  obtain ⟨_, hlt, rfl⟩ := tree?_eq_some_iff.mp ht
  exact exists_entry_depth_iff (not_transGen_below hg) (lt_size_of_mem_shownChildren hg) hlt

theorem isCyclic_of_reaches {n : Navigation} {h u : Handle} (hh : n.isCyclic h = false)
    (hreach : ReflTransGen (Below n.shownChildren) h u) : n.isCyclic u = false := by
  induction hreach with
  | refl => exact hh
  | tail _ hbelow _ => exact (below_shownChildren_iff.mp hbelow).2

/-- A link into a shown entity leads below it exactly if it comes from one that is not cyclic, so
roots stand below nothing that is shown. -/
theorem mem_roots_iff_below {h : Handle} :
    h ∈ (ofGraph r g).roots ↔ (∃ k, r.kind? h = some k ∧ k.isNavigable) ∧
      (ofGraph r g).isCyclic h = false ∧
      ∀ u, (ofGraph r g).isCyclic u = false → ¬Below (ofGraph r g).shownChildren u h := by
  rw [mem_roots_iff]
  refine and_congr_right fun _ => and_congr_right fun hcyclic => forall_congr' fun u => ?_
  rw [below_shownChildren_iff]
  constructor
  · intro hlinks hu hbelow
    simp [hlinks hbelow.1] at hu
  · intro hbelow hedge
    by_contra hu
    exact hbelow (by simpa using hu) ⟨hedge, hcyclic⟩

/-- Where only commands and menus have children, each command or menu that is not cyclic is a root
or shown below one. -/
theorem exists_root_reaches (hg : g.Valid)
    (hparents : ∀ u v, g.Edge u v → ∃ k, r.kind? u = some k ∧ k.isNavigable) {h : Handle}
    (hlt : h < g.size) (hkind : ∃ k, r.kind? h = some k ∧ k.isNavigable)
    (hcyclic : (ofGraph r g).isCyclic h = false) :
    ∃ root ∈ (ofGraph r g).roots, ReflTransGen (Below (ofGraph r g).shownChildren) root h := by
  -- only links from what is not cyclic count on the way up
  let shown (u : Handle) : List Handle :=
    if (ofGraph r g).isCyclic u then [] else (ofGraph r g).shownChildren u
  have hshown {u v : Handle} : Below shown u v ↔
      (ofGraph r g).isCyclic u = false ∧ Below (ofGraph r g).shownChildren u v := by
    by_cases hu : (ofGraph r g).isCyclic u = true <;> simp [Below, shown, hu]
  have hacyclic (v : Handle) : ¬TransGen (Below shown) v v := fun hround =>
    not_transGen_below hg v (hround.lift id fun _ _ hbelow => (hshown.mp hbelow).2)
  have hup (u c : Handle) (hbelow : Below shown u c) : u < g.size :=
    (below_shownChildren_iff.mp (hshown.mp hbelow).2).1.lt_size
  obtain ⟨top, hreach, hnone⟩ := exists_top hacyclic hlt hup
  refine ⟨top, mem_roots_iff_below.mpr ⟨?_, ?_, ?_⟩, ?_⟩
  · rcases ReflTransGen.cases_head hreach with rfl | ⟨c, hbelow, _⟩
    · exact hkind
    · exact hparents top c (below_shownChildren_iff.mp (hshown.mp hbelow).2).1
  · rcases ReflTransGen.cases_head hreach with rfl | ⟨c, hbelow, _⟩
    · exact hcyclic
    · exact (hshown.mp hbelow).1
  · intro u hu hbelow
    exact hnone u (hshown.mpr ⟨hu, hbelow⟩)
  · exact hreach.lift id fun _ _ hbelow => (hshown.mp hbelow).2

theorem roots_pairwise_lt (r : Registry) (g : Graph) (cycles : List MenuCycle) :
    (ofCycles r g cycles).roots.Pairwise (· < ·) := by
  have hhandles : r.handles.Pairwise (· < ·) := List.pairwise_lt_range
  exact hhandles.filter _

end UiCatalog.Navigation
