import UiCatalog.Proofs.Graph.Expansion
import UiCatalog.Proofs.Navigation.Trees
/-!
# Trees are recursive unfoldings

The tree of an entity is the pre-order listing of a recursive tree: below each entity its children
that are shown, in order and as often as they are listed. Nothing that is shown stands below itself,
so the recursion has exactly one solution and the loop comes to an end without a limit.
-/

namespace UiCatalog.Navigation

open Relation UiCatalog.Graph

variable {r : Registry} {g : Graph}

private theorem tree?_eq_none {n : Navigation} {h : Handle}
    (hnone : n.isCyclic h = true ∨ n.graph.size ≤ h) : n.tree? h = none :=
  if_pos hnone

/-- The tree of an entity lists the recursive tree of its shown children, and the loop that lists it
ends by itself after one round for each entry. -/
theorem tree?_unfolds (r : Registry) {g : Graph} (hg : g.Valid) :
    ∃ tree, IsUnfolding (ofGraph r g).shownChildren tree ∧
      (∀ tree', IsUnfolding (ofGraph r g).shownChildren tree' → tree' = tree) ∧
      ∀ h : Handle,
        ((ofGraph r g).isCyclic h = false → h < g.size → ∃ t, (ofGraph r g).tree? h = some t ∧
          t.toList = (tree h).entries 0 0 ∧
          Unfolds (ofGraph r g).shownChildren h t.toList ∧
          (Expansion.next (ofGraph r g).shownChildren)^[t.size] (Expansion.start h) = ⟨t, []⟩) ∧
        ((ofGraph r g).isCyclic h = true ∨ g.size ≤ h → (ofGraph r g).tree? h = none) := by
  have hacyclic := not_transGen_below (r := r) hg
  have hsize := lt_size_of_mem_shownChildren (r := r) hg
  obtain ⟨tree, htree, hunique⟩ := existsUnique_isUnfolding (wellFounded_below hacyclic hsize)
  refine ⟨tree, htree, hunique, fun h => ⟨fun hcyclic hlt => ?_, tree?_eq_none⟩⟩
  obtain ⟨hentries, hrounds⟩ := unfold_eq_entries hacyclic hsize htree hlt
  refine ⟨_, tree?_eq_some_iff.mpr ⟨hcyclic, hlt, rfl⟩, hentries, ?_, hrounds⟩
  exact (congrArg (Unfolds (ofGraph r g).shownChildren h) hentries).mpr (htree.unfolds h)

/-- A menu lists one of its children twice and a cyclic one, which is not shown; a submenu that it
shares with one of them stands below both. -/
theorem tree?_unfolds_shared :
    let r : Registry := ⟨["file", "edit", "view", "tools"].map (.bare .menu · none)⟩
    let g : Graph := ⟨[[1, 2, 3, 1], [2], [], [3]]⟩
    g.Valid ∧ (ofGraph r g).isCyclic 0 = false ∧ 0 < g.size ∧
      (ofGraph r g).isCyclic 3 = true ∧ (ofGraph r g).tree? 3 = none ∧
      (ofGraph r g).tree? 0 = some #[⟨0, 0, [1, 3, 4]⟩, ⟨1, 1, [2]⟩, ⟨2, 2, []⟩, ⟨2, 1, []⟩,
        ⟨1, 1, [5]⟩, ⟨2, 2, []⟩] := by
  intro r g
  have hvalid : g.Valid := by decide
  have hshown : (ofGraph r g).isCyclic 0 = false := by decide +kernel
  have hcyclic : (ofGraph r g).isCyclic 3 = true := by decide +kernel
  have hsize : 0 < g.size := by decide
  obtain ⟨tree, htree, -, hlisted⟩ := tree?_unfolds r hvalid
  obtain ⟨t, ht, hentries, -⟩ := (hlisted 0).1 hshown hsize
  refine ⟨hvalid, hshown, hsize, hcyclic, (hlisted 3).2 (Or.inl hcyclic), ?_⟩
  have hchildren : [0, 1, 2].map (ofGraph r g).shownChildren = [[1, 2, 1], [2], []] := by
    decide +kernel
  simp only [List.map_cons, List.map_nil, List.cons.injEq, and_true] at hchildren
  obtain ⟨hfile, hedit, hview⟩ := hchildren
  have hlisting : (tree 0).entries 0 0 = [⟨0, 0, [1, 3, 4]⟩, ⟨1, 1, [2]⟩, ⟨2, 2, []⟩, ⟨2, 1, []⟩,
      ⟨1, 1, [5]⟩, ⟨2, 2, []⟩] := by
    rw [htree 0, hfile, List.map_cons, List.map_cons, List.map_cons, htree 1, hedit, List.map_cons,
      htree 2, hview]
    rfl
  rw [ht, ← hlisting, ← hentries]

end UiCatalog.Navigation
