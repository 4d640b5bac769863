import UiCatalog.Proofs.Graph.ShortestCycle
import UiCatalog.Proofs.Graph.Unfolding
/-!
# One more node

A node that no other node links to may link to whatever it likes: what can be reached from the other
nodes stays the same, and so do their components, the cycles that are found among them and their
trees.
-/

namespace UiCatalog.Graph

open Relation

/-- Whether `g'` is `g` with one more node at the end. As the links of `g` lead to nodes of `g`, no
other node links to the new one. -/
structure Extends (g g' : Graph) : Prop where
  valid : g.Valid
  valid' : g'.Valid
  size : g'.size = g.size + 1
  targets : ∀ v, v ≠ g.size → g'.targets v = g.targets v

namespace Extends

variable {g g' : Graph} {u v : Nat}

private theorem edge_iff (hg : g.Extends g') (hu : u ≠ g.size) : g'.Edge u v ↔ g.Edge u v := by
  rw [Edge, hg.targets u hu, Edge]

private theorem ne_of_edge (hg : g.Extends g') (hu : u ≠ g.size) (h : g'.Edge u v) : v ≠ g.size :=
  Nat.ne_of_lt (hg.valid u v ((hg.edge_iff hu).mp h))

private theorem reaches_iff (hg : g.Extends g') (hu : u ≠ g.size) :
    g'.Reaches u v ↔ g.Reaches u v := by
  constructor
  · intro hreach
    have hway : g.Reaches u v ∧ v ≠ g.size := by
      induction hreach with
      | refl => exact ⟨ReflTransGen.refl, hu⟩
      | tail _ hedge ih =>
        obtain ⟨hway, hne⟩ := ih
        exact ⟨hway.tail ((hg.edge_iff hne).mp hedge), hg.ne_of_edge hne hedge⟩
    exact hway.1
  · intro hreach
    refine hreach.lift id fun x y hedge => ?_
    exact (hg.edge_iff (Nat.ne_of_lt hedge.lt_size)).mpr hedge

theorem transGen_iff (hg : g.Extends g') (hu : u ≠ g.size) :
    TransGen g'.Edge u v ↔ TransGen g.Edge u v := by
  rw [TransGen.head'_iff, TransGen.head'_iff]
  refine exists_congr fun w => ?_
  constructor
  · rintro ⟨hedge, hreach⟩
    exact ⟨(hg.edge_iff hu).mp hedge, (hg.reaches_iff (hg.ne_of_edge hu hedge)).mp hreach⟩
  · rintro ⟨hedge, hreach⟩
    have hedge' := (hg.edge_iff hu).mpr hedge
    exact ⟨hedge', (hg.reaches_iff (hg.ne_of_edge hu hedge')).mpr hreach⟩

private theorem nodes (hg : g.Extends g') : g'.nodes = g.nodes ++ [g.size] := by
  rw [Graph.nodes, hg.size, List.range_succ, Graph.nodes]

private theorem eq_of_mem_component (hg : g.Extends g') {c : List Nat} (hc : c ∈ g'.components)
    (hnew : g.size ∈ c) (hv : v ∈ c) : v = g.size := by
  by_contra hne
  have hreach := ((mem_component_iff hg.valid' hc hnew).mp hv).2
  rcases reflTransGen_iff_eq_or_transGen.mp ((hg.reaches_iff hne).mp hreach) with heq | hway
  · exact hne heq.symm
  · obtain ⟨w, _, hedge⟩ := TransGen.tail'_iff.mp hway
    exact absurd (hg.valid w g.size hedge) (Nat.lt_irrefl _)

private theorem component_eq (hg : g.Extends g') {c c' : List Nat} (hc : c ∈ g.components)
    (hc' : c' ∈ g'.components) (hv : v ∈ c) (hv' : v ∈ c') : c' = c := by
  have hne : v ≠ g.size := Nat.ne_of_lt (mem_component_lt hc hv)
  have hnew : g.size ∉ c' := fun hnew => hne (hg.eq_of_mem_component hc' hnew hv')
  have hmem : ∀ w ∈ g.nodes, (decide (w ∈ c') : Bool) = decide (w ∈ c) := by
    intro w hw
    have hwne : w ≠ g.size := Nat.ne_of_lt (mem_nodes.mp hw)
    rw [decide_eq_decide, mem_component_iff hg.valid' hc' hv', mem_component_iff hg.valid hc hv,
      hg.reaches_iff hne, hg.reaches_iff hwne]
  calc c' = g'.nodes.filter (· ∈ c') := component_eq_filter hc'
    _ = g.nodes.filter (· ∈ c') := by simp [hg.nodes, List.filter_append, hnew]
    _ = g.nodes.filter (· ∈ c) := List.filter_congr hmem
    _ = c := (component_eq_filter hc).symm

private theorem mem_components_iff (hg : g.Extends g') {c : List Nat} (hv : v ∈ c)
    (hne : v ≠ g.size) : c ∈ g'.components ↔ c ∈ g.components := by
  constructor
  · intro hc'
    have hlt := mem_component_lt hc' hv
    rw [hg.size] at hlt
    obtain ⟨c₀, hc₀, hv₀⟩ := exists_component hg.valid (v := v) (by omega)
    rwa [hg.component_eq hc₀ hc' hv₀ hv]
  · intro hc
    have hlt := mem_component_lt hc hv
    obtain ⟨c₀, hc₀, hv₀⟩ := exists_component hg.valid' (v := v) (by rw [hg.size]; omega)
    rwa [← hg.component_eq hc hc₀ hv hv₀]

private theorem mem_cyclicComponents_iff (hg : g.Extends g') {c : List Nat} (hv : v ∈ c)
    (hne : v ≠ g.size) : c ∈ g'.cyclicComponents ↔ c ∈ g.cyclicComponents := by
  rw [Graph.mem_cyclicComponents_iff hg.valid', Graph.mem_cyclicComponents_iff hg.valid,
    hg.mem_components_iff hv hne]
  refine and_congr_right fun hc => ?_
  have hc' := (hg.mem_components_iff hv hne).mpr hc
  rw [hasCycle_iff hg.valid' hc' hv, hasCycle_iff hg.valid hc hv, hg.transGen_iff hne]

/-- All that the new node can bring is a component of its own, at the end. -/
theorem cyclicComponents_eq (hg : g.Extends g') :
    ∃ new : Option (List Nat), g'.cyclicComponents = g.cyclicComponents ++ new.toList ∧
      ∀ c ∈ new, ∀ v ∈ c, v = g.size := by
  let listed (g : Graph) (v : Nat) : Option (List Nat) :=
    (g.components.filter g.hasCycle).find? (·.head? == some v)
  have hlisted : ∀ v ∈ g.nodes, listed g' v = listed g v := by
    intro v hv
    apply Option.ext
    intro c
    rw [find?_cyclic_eq_some_iff hg.valid', find?_cyclic_eq_some_iff hg.valid,
      ← Graph.mem_cyclicComponents_iff hg.valid', ← Graph.mem_cyclicComponents_iff hg.valid]
    refine and_congr_left fun hhead => ?_
    exact hg.mem_cyclicComponents_iff (List.mem_of_mem_head? hhead) (Nat.ne_of_lt (mem_nodes.mp hv))
  refine ⟨listed g' g.size, ?_, fun c hc v hv => ?_⟩
  · have hlast : [g.size].filterMap (listed g') = (listed g' g.size).toList := by
      cases hlast : listed g' g.size <;> simp [hlast]
    change g'.nodes.filterMap (listed g') = g.nodes.filterMap (listed g) ++ _
    rw [hg.nodes, List.filterMap_append, hlast, List.filterMap_congr hlisted]
  · obtain ⟨⟨hc, _⟩, hhead⟩ := (find?_cyclic_eq_some_iff hg.valid').mp hc
    exact hg.eq_of_mem_component hc (List.mem_of_mem_head? hhead) hv

end Extends

/-! ## Searches that do not get to the new node -/

section

variable {g g' : Graph} {P : Nat → Prop}

/-- A search for a cycle looks only at the links of nodes that it may go on to. -/
theorem closing_congr_targets (htargets : ∀ v, P v → g'.targets v = g.targets v) (start : Nat)
    {fresh : List Nat} {queue : List (List Nat)} (hfresh : ∀ v ∈ fresh, P v)
    (hqueue : ∀ way ∈ queue, ∀ v ∈ way, P v) :
    closing g' start fresh queue = closing g start fresh queue ∧
      ∀ way, closing g start fresh queue = some way → ∀ v ∈ way, P v := by
  fun_induction closing g start fresh queue with
  | case1 =>
    rw [closing]
    exact ⟨rfl, by simp⟩
  | case2 fresh queue ih =>
    rw [closing]
    exact ih hfresh fun way hway => hqueue way (List.mem_cons_of_mem [] hway)
  | case3 fresh v back queue hstart =>
    have hback := hqueue (v :: back) List.mem_cons_self
    rw [closing, htargets v (hback v List.mem_cons_self), if_pos hstart]
    refine ⟨rfl, ?_⟩
    intro way hway u hu
    obtain rfl := Option.some.inj hway
    exact hback u (List.mem_reverse.mp hu)
  | case4 fresh v back queue hstart reached ih =>
    have hback := hqueue (v :: back) List.mem_cons_self
    have hreached : ∀ u ∈ reached.1 ++ reached.2, P u := fun u hu =>
      hfresh u ((reach_perm (g.targets v) fresh).mem_iff.mp hu)
    rw [closing, htargets v (hback v List.mem_cons_self), if_neg hstart]
    apply ih
    · exact fun u hu => hreached u (List.mem_append_right _ hu)
    · intro way hway
      rcases List.mem_append.mp hway with hway | hway
      · exact hqueue way (List.mem_cons_of_mem _ hway)
      · obtain ⟨u, hu, rfl⟩ := List.mem_map.mp hway
        exact List.forall_mem_cons.mpr ⟨hreached u (List.mem_append_left _ hu), hback⟩

end

/-- A listing asks only for the children of nodes that it gets to, and a limit on the depth that is
never reached can be changed. -/
private theorem unfoldFrom_congr {children children' : Nat → List Nat} {limit limit' : Nat}
    {P : Nat → Nat → Prop} (hchildren : ∀ v d, P v d → children' v = children v)
    (hlimit : ∀ v d, P v d → children v ≠ [] → d < limit ∧ d < limit')
    (hbelow : ∀ v d, P v d → ∀ c ∈ children v, P c (d + 1)) {listing : Array TreeEntry}
    {waiting : List Waiting} (hwaiting : ∀ w ∈ waiting, P w.node w.depth) :
    unfoldFrom children' limit' listing waiting = unfoldFrom children limit listing waiting := by
  fun_induction unfoldFrom children limit listing waiting with
  | case1 listing => rw [unfoldFrom]
  | case2 listing w waiting below ih =>
    obtain ⟨hw, hrest⟩ := List.forall_mem_cons.mp hwaiting
    have hsame : waitingBelow children' limit' listing.size w = below := by
      simp only [below, waitingBelow, hchildren _ _ hw]
      by_cases hnone : children w.node = []
      · simp [hnone]
      · obtain ⟨hlt, hlt'⟩ := hlimit _ _ hw hnone
        rw [if_pos hlt, if_pos hlt']
    rw [unfoldFrom, hsame]
    apply ih
    intro u hu
    rcases List.mem_append.mp hu with hu | hu
    · simp only [below, waitingBelow] at hu
      split at hu
      · obtain ⟨c, hc, rfl⟩ := List.mem_map.mp hu
        exact hbelow _ _ hw c hc
      · simp at hu
    · exact hrest u hu

/-- A tree without cycles is the same if more nodes are there that it does not get to. -/
theorem unfold_congr {children children' : Nat → List Nat} {size size' : Nat}
    (hacyclic : ∀ v, ¬TransGen (Below children) v v) (hsize : ∀ u, ∀ v ∈ children u, v < size)
    (hle : size ≤ size') (hchildren : ∀ v, v < size → children' v = children v) {v : Nat}
    (hv : v < size) : unfold children' size' v = unfold children size v := by
  let Within (u d : Nat) : Prop :=
    u < size ∧ ∀ way, (u :: way).IsChain (Below children) → d + way.length < size
  apply unfoldFrom_congr (P := Within)
  · exact fun u _ hu => hchildren u hu.1
  · intro u d hu hsome
    obtain ⟨c, hc⟩ := List.exists_mem_of_ne_nil _ hsome
    have hstep : (u :: [c]).IsChain (Below children) := List.isChain_pair.mpr hc
    have hlt := hu.2 [c] hstep
    rw [List.length_singleton] at hlt
    omega
  · intro u d hu c hc
    refine ⟨hsize u c hc, fun way hway => ?_⟩
    have hlt := hu.2 (c :: way) (List.isChain_cons_cons.mpr ⟨hc, hway⟩)
    rw [List.length_cons] at hlt
    omega
  · intro w hw
    obtain rfl := List.mem_singleton.mp hw
    refine ⟨hv, fun way hway => ?_⟩
    rw [Nat.zero_add]
    exact length_lt_of_chain hacyclic hsize hv hway

end UiCatalog.Graph
