import UiCatalog.Proofs.Graph.Tarjan
/-!
# Correctness of the components

A component that is found is all nodes that reach each other, and every node is in one. So the nodes
on cycles are those of the components with a cycle.
-/

namespace UiCatalog.Graph

open Relation

private theorem Settled.mem_of_edge {g : Graph} {found : List (List Nat)} {a b : Nat}
    (h : Settled g found) (ha : a ∈ found.flatten) (hab : g.Edge a b) : b ∈ found.flatten := by
  induction found with
  | nil => simp at ha
  | cons c earlier ih =>
    obtain ⟨_, _, hout, hearlier⟩ := h
    rcases List.mem_append.mp ha with ha | ha
    · exact List.mem_append.mpr (hout a ha b hab)
    · exact List.mem_append_right c (ih hearlier ha)

private theorem Settled.mem_of_reaches {g : Graph} {found : List (List Nat)} {a b : Nat}
    (h : Settled g found) (ha : a ∈ found.flatten) (hab : g.Reaches a b) : b ∈ found.flatten := by
  induction hab with
  | refl => exact ha
  | tail _ hedge ih => exact h.mem_of_edge ih hedge

private theorem Settled.mem_component_iff {g : Graph} {found : List (List Nat)} {c : List Nat}
    {a b : Nat} (h : Settled g found) (hnodup : found.flatten.Nodup) (hc : c ∈ found) (ha : a ∈ c) :
    b ∈ c ↔ g.Reaches a b ∧ g.Reaches b a := by
  induction found with
  | nil => simp at hc
  | cons c' earlier ih =>
    have hdisjoint := (List.nodup_append.mp hnodup).2.2
    rcases List.mem_cons.mp hc with rfl | hc
    · refine ⟨fun hb => ⟨h.2.1 a ha b hb, h.2.1 b hb a ha⟩, fun ⟨hab, hba⟩ => ?_⟩
      rcases List.mem_append.mp (h.mem_of_reaches (List.mem_append_left _ ha) hab) with hb | hb
      · exact hb
      · exact absurd rfl (hdisjoint a ha a (h.2.2.2.mem_of_reaches hb hba))
    · exact ih h.2.2.2 (List.nodup_append.mp hnodup).2.1 hc

private theorem Settled.ne_nil {g : Graph} {found : List (List Nat)} {c : List Nat}
    (h : Settled g found) (hc : c ∈ found) : c ≠ [] := by
  induction found with
  | nil => simp at hc
  | cons c' earlier ih =>
    rcases List.mem_cons.mp hc with rfl | hc
    · exact h.1
    · exact ih h.2.2.2 hc

section Components

variable {g : Graph}

private theorem searching_nodes (g : Graph) : Searching g g.nodes [] [] :=
  ⟨by simp, by simp, trivial, trivial, trivial⟩

private theorem settled_stronglyConnected (hg : g.Valid) : Settled g g.stronglyConnected ∧
    g.stronglyConnected.flatten.Perm g.nodes := by
  have h := (searching_nodes g).search hg
  rw [stronglyConnected_eq_search hg]
  exact ⟨h.settled, by simpa using h.nodes⟩

/-- Lists of nodes that are the classes of nodes that reach each other. -/
structure Partitions (g : Graph) (components : List (List Nat)) : Prop where
  /-- Every node is in one component, and once. -/
  nodes : components.flatten.Perm g.nodes
  nonempty : ∀ c ∈ components, c ≠ []
  shared : ∀ u < g.size, ∀ v < g.size,
    (∃ c ∈ components, u ∈ c ∧ v ∈ c) ↔ g.Reaches u v ∧ g.Reaches v u

theorem partitions_stronglyConnected (hg : g.Valid) : g.Partitions g.stronglyConnected := by
  obtain ⟨hsettled, hperm⟩ := settled_stronglyConnected hg
  have hnodup := hperm.nodup_iff.mpr g.nodup_nodes
  refine ⟨hperm, fun c hc => hsettled.ne_nil hc, fun u hu v _ => ⟨?_, fun hreaches => ?_⟩⟩
  · rintro ⟨c, hc, huc, hvc⟩
    exact (hsettled.mem_component_iff hnodup hc huc).mp hvc
  · obtain ⟨c, hc, huc⟩ := List.mem_flatten.mp (hperm.mem_iff.mpr (mem_nodes.mpr hu))
    exact ⟨c, hc, huc, (hsettled.mem_component_iff hnodup hc huc).mpr hreaches⟩

/-- What the pass finds, before the nodes of each component are put into order. -/
private theorem exists_settled (hg : g.Valid) :
    ∃ found, Settled g found ∧ found.flatten.Perm g.nodes ∧
      g.components = found.map fun members => g.nodes.filter (· ∈ members) := by
  obtain ⟨hsettled, hperm⟩ := settled_stronglyConnected hg
  exact ⟨g.stronglyConnected, hsettled, hperm, rfl⟩

theorem mem_component_lt {c : List Nat} {v : Nat} (hc : c ∈ g.components) (hv : v ∈ c) :
    v < g.size := by
  obtain ⟨members, _, rfl⟩ := List.mem_map.mp hc
  exact mem_nodes.mp (List.mem_filter.mp hv).1

/-- Two nodes share a component if and only if they reach each other. -/
theorem mem_component_iff (hg : g.Valid) {c : List Nat} {a b : Nat} (hc : c ∈ g.components)
    (ha : a ∈ c) : b ∈ c ↔ g.Reaches a b ∧ g.Reaches b a := by
  obtain ⟨found, hsettled, hperm, heq⟩ := exists_settled hg
  rw [heq] at hc
  obtain ⟨members, hmembers, rfl⟩ := List.mem_map.mp hc
  have hnodup : found.flatten.Nodup := hperm.nodup_iff.mpr g.nodup_nodes
  have hin {x : Nat} : x ∈ g.nodes.filter (· ∈ members) ↔ x ∈ members := by
    simp only [List.mem_filter, decide_eq_true_eq, and_iff_right_iff_imp]
    exact fun hx => hperm.mem_iff.mp (List.mem_flatten.mpr ⟨members, hmembers, hx⟩)
  rw [hin, hsettled.mem_component_iff hnodup hmembers (hin.mp ha)]

theorem exists_component (hg : g.Valid) {v : Nat} (hv : v < g.size) :
    ∃ c ∈ g.components, v ∈ c := by
  obtain ⟨found, _, hperm, heq⟩ := exists_settled hg
  obtain ⟨members, hmembers, hmem⟩ :=
    List.mem_flatten.mp (hperm.mem_iff.mpr (mem_nodes.mpr hv))
  refine ⟨g.nodes.filter (· ∈ members), ?_, ?_⟩
  · rw [heq]
    exact List.mem_map.mpr ⟨members, hmembers, rfl⟩
  · exact List.mem_filter.mpr ⟨mem_nodes.mpr hv, by simpa using hmem⟩

theorem component_ne_nil (hg : g.Valid) {c : List Nat} (hc : c ∈ g.components) : c ≠ [] := by
  obtain ⟨found, hsettled, hperm, heq⟩ := exists_settled hg
  rw [heq] at hc
  obtain ⟨members, hmembers, rfl⟩ := List.mem_map.mp hc
  obtain ⟨v, hv⟩ := List.exists_mem_of_ne_nil _ (hsettled.ne_nil hmembers)
  refine List.ne_nil_of_mem (a := v) (List.mem_filter.mpr ⟨?_, by simpa using hv⟩)
  exact hperm.mem_iff.mp (List.mem_flatten.mpr ⟨members, hmembers, hv⟩)

theorem component_eq_filter {c : List Nat} (hc : c ∈ g.components) :
    c = g.nodes.filter (· ∈ c) := by
  obtain ⟨members, _, rfl⟩ := List.mem_map.mp hc
  refine List.filter_congr fun v hv => ?_
  simp [hv]

theorem component_nodup {c : List Nat} (hc : c ∈ g.components) : c.Nodup := by
  rw [component_eq_filter hc]
  exact g.nodup_nodes.filter _

theorem component_eq_of_mem (hg : g.Valid) {c c' : List Nat} {v : Nat} (hc : c ∈ g.components)
    (hc' : c' ∈ g.components) (hv : v ∈ c) (hv' : v ∈ c') : c = c' := by
  rw [component_eq_filter hc, component_eq_filter hc']
  refine List.filter_congr fun u _ => ?_
  rw [decide_eq_decide, mem_component_iff hg hc hv, mem_component_iff hg hc' hv']

/-- A component has a cycle if and only if its nodes lie on one. -/
theorem hasCycle_iff (hg : g.Valid) {c : List Nat} {v : Nat} (hc : c ∈ g.components)
    (hv : v ∈ c) : g.hasCycle c ↔ TransGen g.Edge v v := by
  match c, hc, hv with
  | [u], hc, hv =>
    obtain rfl : v = u := by simpa using hv
    have hself : g.hasCycle [v] ↔ g.Edge v v := by simp [hasCycle, Edge]
    refine hself.trans ⟨TransGen.single, fun hcycle => ?_⟩
    obtain ⟨w, hedge, hback⟩ := TransGen.head'_iff.mp hcycle
    have hw : w ∈ [v] := (mem_component_iff hg hc hv).mpr ⟨ReflTransGen.single hedge, hback⟩
    obtain rfl : w = v := by simpa using hw
    exact hedge
  | u :: u' :: us, hc, hv =>
    refine ⟨fun _ => ?_, fun _ => rfl⟩
    obtain ⟨w, hw, hne⟩ : ∃ w ∈ u :: u' :: us, w ≠ v := by
      by_cases huv : u = v
      · have hnot := (List.nodup_cons.mp (component_nodup hc)).1
        exact ⟨u', by simp, fun heq => hnot (by simp [huv, heq])⟩
      · exact ⟨u, by simp, huv⟩
    obtain ⟨hvw, hwv⟩ := (mem_component_iff hg hc hv).mp hw
    rcases reflTransGen_iff_eq_or_transGen.mp hvw with heq | htrans
    · exact absurd heq hne
    · exact htrans.trans_left hwv

/-- The component with a cycle that is listed for a node is the one that starts with it. -/
theorem find?_cyclic_eq_some_iff (hg : g.Valid) {v : Nat} {c : List Nat} :
    (g.components.filter g.hasCycle).find? (·.head? == some v) = some c ↔
      (c ∈ g.components ∧ g.hasCycle c) ∧ c.head? = some v := by
  constructor
  · intro hfind
    refine ⟨List.mem_filter.mp (List.mem_of_find?_eq_some hfind), ?_⟩
    simpa using List.find?_some hfind
  · rintro ⟨⟨hc, hcycle⟩, hhead⟩
    cases hfind : (g.components.filter g.hasCycle).find? (·.head? == some v) with
    | none =>
      have hnot := List.find?_eq_none.mp hfind c (List.mem_filter.mpr ⟨hc, hcycle⟩)
      simp [hhead] at hnot
    | some c' =>
      have hc' := (List.mem_filter.mp (List.mem_of_find?_eq_some hfind)).1
      have hhead' : c'.head? = some v := by simpa using List.find?_some hfind
      rw [component_eq_of_mem hg hc hc' (List.mem_of_mem_head? hhead)
        (List.mem_of_mem_head? hhead')]

theorem mem_cyclicComponents_iff (hg : g.Valid) {c : List Nat} :
    c ∈ g.cyclicComponents ↔ c ∈ g.components ∧ g.hasCycle c := by
  simp only [cyclicComponents, List.mem_filterMap, find?_cyclic_eq_some_iff hg]
  constructor
  · rintro ⟨_, _, hc, _⟩
    exact hc
  · rintro ⟨hc, hcycle⟩
    obtain ⟨v, l, rfl⟩ := List.exists_cons_of_ne_nil (component_ne_nil hg hc)
    exact ⟨v, mem_nodes.mpr (mem_component_lt hc List.mem_cons_self), ⟨hc, hcycle⟩, rfl⟩

theorem mem_cyclicComponents_flatten_iff (hg : g.Valid) {v : Nat} :
    (∃ c ∈ g.cyclicComponents, v ∈ c) ↔ TransGen g.Edge v v := by
  constructor
  · rintro ⟨c, hc, hv⟩
    obtain ⟨hc, hcycle⟩ := (mem_cyclicComponents_iff hg).mp hc
    exact (hasCycle_iff hg hc hv).mp hcycle
  · intro hcycle
    obtain ⟨w, hedge, _⟩ := TransGen.head'_iff.mp hcycle
    obtain ⟨c, hc, hv⟩ := exists_component hg hedge.lt_size
    exact ⟨c, (mem_cyclicComponents_iff hg).mpr ⟨hc, (hasCycle_iff hg hc hv).mpr hcycle⟩, hv⟩

theorem cyclicComponents_heads (g : Graph) :
    (g.cyclicComponents.map List.head?).Sublist (g.nodes.map some) := by
  unfold cyclicComponents
  dsimp only
  induction g.nodes with
  | nil => simp
  | cons v vs ih =>
    rw [List.filterMap_cons]
    split
    · exact ih.cons _
    · rename_i c hfind
      have hhead : c.head? = some v := by simpa using List.find?_some hfind
      rw [List.map_cons, List.map_cons, hhead]
      exact ih.cons_cons _

end Components

end UiCatalog.Graph
