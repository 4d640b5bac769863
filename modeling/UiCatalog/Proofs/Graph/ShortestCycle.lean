import UiCatalog.Graph.ShortestCycle
import UiCatalog.Proofs.Graph.Components
/-!
# The search for a cycle closes

A search that ends without closing has looked at everything it could reach, and nothing there links
back to the start. Inside a component with a cycle that cannot be, so the search always finds a
cycle there.
-/

namespace UiCatalog.Graph

open Relation

theorem reach_perm (links fresh : List Nat) :
    ((reach links fresh).1 ++ (reach links fresh).2).Perm fresh := by
  fun_induction reach links fresh with
  | case1 => simp
  | case2 w links fresh h later ih =>
    exact (ih.cons w).trans (List.perm_cons_erase h).symm
  | case3 _ _ _ _ ih => exact ih

theorem mem_reach {links fresh : List Nat} {w : Nat} (hw : w ∈ links) (hfresh : w ∈ fresh) :
    w ∈ (reach links fresh).1 := by
  fun_induction reach links fresh with
  | case1 => simp at hw
  | case2 u links fresh h later ih =>
    by_cases heq : w = u
    · exact List.mem_cons.mpr (Or.inl heq)
    · have hlinks : w ∈ links := (List.mem_cons.mp hw).resolve_left heq
      exact List.mem_cons_of_mem u (ih hlinks ((List.mem_erase_of_ne heq).mpr hfresh))
  | case3 u links fresh h ih =>
    rcases List.mem_cons.mp hw with rfl | hw
    · exact absurd hfresh h
    · exact ih hw hfresh

theorem edge_of_mem_reach {g : Graph} {v w : Nat} {fresh : List Nat}
    (hw : w ∈ (reach (g.targets v) fresh).1) : g.Edge v w := by
  have hlinks {links fresh : List Nat} (hmem : w ∈ (reach links fresh).1) : w ∈ links := by
    fun_induction reach links fresh with
    | case1 => simp at hmem
    | case2 u links fresh h later ih =>
      rcases List.mem_cons.mp hmem with rfl | hmem
      · exact List.mem_cons_self
      · exact List.mem_cons_of_mem u (ih hmem)
    | case3 u links fresh h ih => exact List.mem_cons_of_mem u (ih hmem)
  exact hlinks hw

/-- If no link closes to the start, then what the search has looked at links to nothing fresh that
it has not looked at, and not to the start. -/
private theorem exists_closed_of_closing_eq_none {g : Graph} {start : Nat} {fresh : List Nat}
    {queue : List (List Nat)} (h : closing g start fresh queue = none) :
    ∃ seen : Nat → Prop, (∀ v back, v :: back ∈ queue → seen v) ∧
      ∀ u, seen u → start ∉ g.targets u ∧ ∀ w ∈ g.targets u, w ∈ fresh → seen w := by
  fun_induction closing g start fresh queue with
  | case1 => exact ⟨fun _ => False, by simp, by simp⟩
  | case2 fresh queue ih =>
    obtain ⟨seen, hqueue, hclosed⟩ := ih h
    exact ⟨seen, fun v back hmem => hqueue v back (by simpa using hmem), hclosed⟩
  | case3 => simp at h
  | case4 fresh v back queue hstart reached ih =>
    obtain ⟨seen, hqueue, hclosed⟩ := ih h
    have hreached {w : Nat} (hw : w ∈ reached.1) : seen w :=
      hqueue w (v :: back) (List.mem_append_right queue (List.mem_map.mpr ⟨w, hw, rfl⟩))
    refine ⟨fun u => u = v ∨ seen u, fun u way hmem => ?_, fun u hu => ?_⟩
    · rcases List.mem_cons.mp hmem with heq | hmem
      · exact Or.inl (List.cons.inj heq).1
      · exact Or.inr (hqueue u way (List.mem_append_left _ hmem))
    · rcases hu with rfl | hu
      · exact ⟨hstart, fun w hw hfresh => Or.inr (hreached (mem_reach hw hfresh))⟩
      · refine ⟨(hclosed u hu).1, fun w hw hfresh => Or.inr ?_⟩
        rcases List.mem_append.mp ((reach_perm (g.targets v) fresh).mem_iff.mpr hfresh) with hm | hm
        · exact hreached hm
        · exact (hclosed u hu).2 w hw hm

private theorem closing_ne_none {g : Graph} (hg : g.Valid) {c : List Nat} {start : Nat}
    (hc : c ∈ g.components) (hstart : start ∈ c) (hcycle : TransGen g.Edge start start) :
    closing g start (c.erase start) [[start]] ≠ none := by
  intro hnone
  obtain ⟨seen, hqueue, hclosed⟩ := exists_closed_of_closing_eq_none hnone
  have hseen : seen start := hqueue start [] (by simp)
  obtain ⟨last, hreach, hback⟩ := TransGen.tail'_iff.mp hcycle
  suffices seen last from (hclosed last this).1 hback
  -- every way from the start that gets back to it stays in the component
  have hstay : ∀ u, g.Reaches start u → g.Reaches u start → seen u := by
    intro u hu
    induction hu with
    | refl => exact fun _ => hseen
    | @tail x y hx hedge ih =>
      intro hy
      have hxback : g.Reaches x start := (ReflTransGen.single hedge).trans hy
      have hmem : y ∈ c := (mem_component_iff hg hc hstart).mpr ⟨hx.tail hedge, hy⟩
      by_cases heq : y = start
      · exact heq ▸ hseen
      · exact (hclosed x (ih hxback)).2 y hedge ((List.mem_erase_of_ne heq).mpr hmem)
  exact hstay last hreach (ReflTransGen.single hback)

private theorem closing_head? {g : Graph} {start : Nat} {fresh : List Nat} {queue : List (List Nat)}
    {way : List Nat} (h : closing g start fresh queue = some way)
    (hqueue : ∀ w ∈ queue, w ≠ [] → w.getLast? = some start) : way.head? = some start := by
  fun_induction closing g start fresh queue with
  | case1 => simp at h
  | case2 fresh queue ih => exact ih h fun w hw => hqueue w (List.mem_cons_of_mem [] hw)
  | case3 fresh v back queue hstart =>
    obtain rfl : (v :: back).reverse = way := Option.some.inj h
    rw [List.head?_reverse]
    exact hqueue (v :: back) (by simp) (by simp)
  | case4 fresh v back queue hstart reached ih =>
    refine ih h fun w hw hne => ?_
    rcases List.mem_append.mp hw with hw | hw
    · exact hqueue w (List.mem_cons_of_mem _ hw) hne
    · obtain ⟨u, _, rfl⟩ := List.mem_map.mp hw
      rw [List.getLast?_cons_cons]
      exact hqueue (v :: back) (by simp) (by simp)

/-- In a component with a cycle the search finds a cycle from the start on. -/
theorem exists_closing {g : Graph} (hg : g.Valid) {c : List Nat} {start : Nat}
    (hc : c ∈ g.cyclicComponents) (hstart : start ∈ c) :
    ∃ way, closing g start (c.erase start) [[start]] = some way ∧ way.head? = some start := by
  obtain ⟨hc, hcycle⟩ := (mem_cyclicComponents_iff hg).mp hc
  obtain ⟨way, hway⟩ := Option.ne_none_iff_exists'.mp
    (closing_ne_none hg hc hstart ((hasCycle_iff hg hc hstart).mp hcycle))
  exact ⟨way, hway, closing_head? hway (by simp)⟩

end UiCatalog.Graph
