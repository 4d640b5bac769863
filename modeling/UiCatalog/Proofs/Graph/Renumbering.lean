import Mathlib.Data.List.Nodup
import Mathlib.Data.List.Perm.Basic
import Mathlib.Logic.Equiv.Basic
import UiCatalog.Graph.Unfolding
import UiCatalog.Proofs.Graph.ShortestCycle
/-!
# Renumbered graphs

A graph whose nodes have other numbers has the same edges, cycles and components. Its searches visit
the same nodes in the same order, because links are followed in their own order and fresh nodes are
only asked for membership.
-/

namespace UiCatalog.Graph

open Relation

/-- The links of `g` stand in `g'` under the numbers that `σ` gives. -/
def Renumbers (σ : Equiv.Perm Nat) (g g' : Graph) : Prop :=
  ∀ v, g'.targets (σ v) = (g.targets v).map σ

private theorem reach_congr {fresh fresh' : List Nat} (links : List Nat)
    (hperm : fresh.Perm fresh') :
    (reach links fresh).1 = (reach links fresh').1 ∧
      (reach links fresh).2.Perm (reach links fresh').2 := by
  induction links generalizing fresh fresh' with
  | nil => exact ⟨rfl, hperm⟩
  | cons w links ih =>
    by_cases hw : w ∈ fresh
    · obtain ⟨hreached, hleft⟩ := ih (hperm.erase w)
      rw [reach, reach, if_pos hw, if_pos (hperm.mem_iff.mp hw)]
      exact ⟨congrArg (w :: ·) hreached, hleft⟩
    · rw [reach, reach, if_neg hw, if_neg fun hw' => hw (hperm.mem_iff.mpr hw')]
      exact ih hperm

theorem closing_congr {g : Graph} {start : Nat} {fresh fresh' : List Nat}
    (queue : List (List Nat)) (hperm : fresh.Perm fresh') :
    closing g start fresh queue = closing g start fresh' queue := by
  fun_induction closing g start fresh queue generalizing fresh' with
  | case1 => rw [closing]
  | case2 fresh queue =>
    rename_i ih
    rw [closing, ih hperm]
  | case3 fresh v back queue hstart => rw [closing, if_pos hstart]
  | case4 fresh v back queue hstart reached =>
    rename_i ih
    obtain ⟨hreached, hleft⟩ := reach_congr (g.targets v) hperm
    rw [closing, if_neg hstart]
    dsimp only
    rw [ih hleft, ← hreached]

section

variable {σ : Equiv.Perm Nat} {g g' : Graph}

private theorem reach_map (σ : Equiv.Perm Nat) (links fresh : List Nat) :
    reach (links.map σ) (fresh.map σ) =
      ((reach links fresh).1.map σ, (reach links fresh).2.map σ) := by
  induction links generalizing fresh with
  | nil => rfl
  | cons w links ih =>
    by_cases hw : w ∈ fresh
    · rw [List.map_cons, reach, reach, if_pos (List.mem_map_of_mem hw), if_pos hw,
        ← List.map_erase σ.injective, ih]
      rfl
    · have hw' : σ w ∉ fresh.map σ := by rwa [List.mem_map_of_injective σ.injective]
      rw [List.map_cons, reach, reach, if_neg hw', if_neg hw, ih]

namespace Renumbers

theorem symm (hσ : Renumbers σ g g') : Renumbers σ.symm g' g := by
  intro v
  have h := hσ (σ.symm v)
  rw [σ.apply_symm_apply] at h
  rw [h, List.map_map, Equiv.symm_comp_self, List.map_id]

theorem edge (hσ : Renumbers σ g g') {u v : Nat} (h : g.Edge u v) : g'.Edge (σ u) (σ v) := by
  rw [Edge, hσ]
  exact List.mem_map_of_mem h

theorem transGen_iff (hσ : Renumbers σ g g') {u v : Nat} :
    TransGen g'.Edge (σ u) (σ v) ↔ TransGen g.Edge u v := by
  refine ⟨fun h => ?_, fun h => h.lift σ fun _ _ => hσ.edge⟩
  simpa [Function.onFun] using h.lift σ.symm fun _ _ => hσ.symm.edge

private theorem reaches_iff (hσ : Renumbers σ g g') {u v : Nat} :
    g'.Reaches (σ u) (σ v) ↔ g.Reaches u v := by
  refine ⟨fun h => ?_, fun h => h.lift σ fun _ _ => hσ.edge⟩
  simpa [Reaches, Function.onFun] using h.lift σ.symm fun _ _ => hσ.symm.edge

theorem closing_map (hσ : Renumbers σ g g') (start : Nat) (fresh : List Nat)
    (queue : List (List Nat)) :
    closing g' (σ start) (fresh.map σ) (queue.map (List.map σ)) =
      (closing g start fresh queue).map (List.map σ) := by
  fun_induction closing g start fresh queue with
  | case1 => rw [List.map_nil, closing, Option.map_none]
  | case2 fresh queue ih => rw [List.map_cons, List.map_nil, closing, ih]
  | case3 fresh v back queue hstart =>
    rw [List.map_cons, List.map_cons, closing, hσ, if_pos (List.mem_map_of_mem hstart)]
    simp
  | case4 fresh v back queue hstart reached ih =>
    have hstart' : σ start ∉ (g.targets v).map σ := by
      rwa [List.mem_map_of_injective σ.injective]
    rw [List.map_cons, List.map_cons, closing, hσ, if_neg hstart']
    dsimp only
    rw [reach_map, ← ih]
    simp [reached, Function.comp_def]

/-- A component with a cycle is one in the other graph, up to the order of its nodes. -/
theorem exists_cyclicComponent (hσ : Renumbers σ g g') (hg : g.Valid) (hg' : g'.Valid)
    {c : List Nat} (hc : c ∈ g.cyclicComponents) :
    ∃ c' ∈ g'.cyclicComponents, c'.Perm (c.map σ) := by
  obtain ⟨hcomp, hcycle⟩ := (mem_cyclicComponents_iff hg).mp hc
  obtain ⟨v, hv⟩ := List.exists_mem_of_ne_nil c (component_ne_nil hg hcomp)
  have hv' : TransGen g'.Edge (σ v) (σ v) :=
    hσ.transGen_iff.mpr ((hasCycle_iff hg hcomp hv).mp hcycle)
  obtain ⟨c', hc', hmem⟩ := (mem_cyclicComponents_flatten_iff hg').mpr hv'
  have hcomp' := ((mem_cyclicComponents_iff hg').mp hc').1
  refine ⟨c', hc', (List.perm_ext_iff_of_nodup (component_nodup hcomp')
    ((component_nodup hcomp).map σ.injective)).mpr fun w => ?_⟩
  obtain ⟨u, rfl⟩ := σ.surjective w
  rw [mem_component_iff hg' hcomp' hmem, hσ.reaches_iff, hσ.reaches_iff,
    List.mem_map_of_injective σ.injective, mem_component_iff hg hcomp hv]

end Renumbers

end

def TreeEntry.renumber (f : Nat → Nat) (e : TreeEntry) : TreeEntry :=
  { e with node := f e.node }

def Waiting.renumber (f : Nat → Nat) (w : Waiting) : Waiting :=
  { w with node := f w.node }

private theorem addEntry_map (f : Nat → Nat) (listing : Array TreeEntry) (w : Waiting) :
    addEntry (listing.map (TreeEntry.renumber f)) (w.renumber f) =
      (addEntry listing w).map (TreeEntry.renumber f) := by
  obtain ⟨node, depth, parent⟩ := w
  cases parent with
  | none => simp [addEntry, Waiting.renumber, TreeEntry.renumber]
  | some parent =>
    simp only [addEntry, Waiting.renumber, Array.size_map, Array.map_push]
    congr 1
    refine Array.ext (by simp) fun i hi hi' => ?_
    simp only [Array.getElem_modify, Array.getElem_map]
    split <;> rfl

/-- A tree depends on the numbers of its nodes only by showing them. -/
private theorem unfoldFrom_map {f : Nat → Nat} {children children' : Nat → List Nat}
    (hchildren : ∀ v, children' (f v) = (children v).map f) (limit : Nat)
    (listing : Array TreeEntry) (waiting : List Waiting) :
    unfoldFrom children' limit (listing.map (TreeEntry.renumber f))
        (waiting.map (Waiting.renumber f)) =
      (unfoldFrom children limit listing waiting).map (TreeEntry.renumber f) := by
  fun_induction unfoldFrom children limit listing waiting with
  | case1 listing => rw [List.map_nil, unfoldFrom]
  | case2 listing w waiting below ih =>
    have hbelow : waitingBelow children' limit listing.size (w.renumber f) =
        below.map (Waiting.renumber f) := by
      simp only [below, waitingBelow, Waiting.renumber, hchildren]
      split
      · simp [Function.comp_def, Waiting.renumber]
      · rfl
    rw [List.map_cons, unfoldFrom, Array.size_map, hbelow, addEntry_map, ← List.map_append, ih]

theorem unfold_map {f : Nat → Nat} {children children' : Nat → List Nat}
    (hchildren : ∀ v, children' (f v) = (children v).map f) (limit v : Nat) :
    unfold children' limit (f v) = (unfold children limit v).map (TreeEntry.renumber f) := by
  have h := unfoldFrom_map hchildren limit #[] [⟨v, 0, none⟩]
  rwa [Array.map_empty] at h

end UiCatalog.Graph
