import UiCatalog.Proofs.Renumbering.Entity
import UiCatalog.Proofs.Resolution.Reports
/-!
# The order of blocks does not matter

Blocks without clashes are registered whatever their order, so two orders give registries that
differ by a renumbering. Entities and trees follow it, and the same problems are reported, each of
which its key determines.
-/

namespace UiCatalog

namespace Renumbers

variable {σ : Equiv.Perm Handle} {r r' : Registry}

private theorem mem_problems (hσ : Renumbers σ r r') {o : Options} {h : Handle} {p : Problem}
    (hp : (h, p) ∈ r.problems o) : (σ h, p) ∈ r'.problems o := by
  rw [Registry.mem_problems_iff] at hp ⊢
  rcases hp with hp | hp | hp | ⟨c, hc, hp⟩
  · exact Or.inl (hσ.mem_ancestry_problems hp)
  · obtain ⟨d, hd, hkind, hp⟩ := Registry.mem_effectiveProblems_iff.mp hp
    refine Or.inr (Or.inl (Registry.mem_effectiveProblems_iff.mpr
      ⟨d, (hσ.get? h).trans hd, hkind, ?_⟩))
    rwa [hσ.effectiveOf]
  · obtain ⟨d, hd, hp⟩ := Registry.mem_linkProblems_iff.mp hp
    refine Or.inr (Or.inr (Or.inl (Registry.mem_linkProblems_iff.mpr
      ⟨d, (hσ.get? h).trans hd, ?_⟩)))
    rwa [hσ.linkProblems]
  · obtain ⟨c', hc', hp'⟩ := hσ.menuCycle_problem? hc hp
    exact Or.inr (Or.inr (Or.inr ⟨c', hc', hp'⟩))

private theorem mem_diagnose (hσ : Renumbers σ r r') {o : Options} {d : Diagnostic}
    (hd : d ∈ r.diagnose (r.problems o)) : d ∈ r'.diagnose (r'.problems o) := by
  obtain ⟨h, p, hp, rfl⟩ := Registry.mem_diagnose_iff.mp hd
  refine Registry.mem_diagnose_iff.mpr ⟨σ h, p, hσ.mem_problems hp, ?_⟩
  rw [hσ.get?]

end Renumbers

/-- What is reported about blocks without clashes: misused statements, and the problems between the
definitions. -/
def reports (o : Options) (blocks : List Block) : List Diagnostic :=
  let r : Registry := ⟨blocks.map (Block.definition o.separator)⟩
  blocks.flatMap (Block.misuseReports o.separator) ++ r.diagnose (r.problems o)

theorem resolve_of_unclashing {o : Options} {blocks : List Block}
    (h : Unclashing (blocks.map (Block.definition o.separator))) :
    resolve o blocks =
      ⟨(Catalog.ofRegistry o ⟨blocks.map (Block.definition o.separator)⟩).1,
        Diagnostic.firsts [] (reports o blocks)⟩ := by
  rw [resolve, resolveAfter, Intake.ofBlocks_of_unclashing Log.empty h]
  rfl

theorem reports_keysDetermine {o : Options} {blocks : List Block}
    (hclash : Unclashing (blocks.map (Block.definition o.separator))) :
    Diagnostic.KeysDetermine (reports o blocks) := by
  refine Registry.NamesDistinct.keysDetermine hclash.names o fun d hd => ?_
  obtain ⟨b, _, hd⟩ := List.mem_flatMap.mp hd
  exact ⟨b.name, Block.plain_of_mem_misuseReports hd⟩

/-- Resolution does not depend on the order of the blocks. -/
theorem resolve_perm (o : Options) {blocks blocks' : List Block} (hperm : blocks.Perm blocks')
    (hnames : (blocks.map Block.name).Nodup)
    (huuids : (blocks.filterMap fun b => (b.definition o.separator).uuid).Nodup) :
    (resolve o blocks).Agree (resolve o blocks') := by
  have hdefinitions := hperm.map (Block.definition o.separator)
  have hclash : Unclashing (blocks.map (Block.definition o.separator)) := by
    refine ⟨?_, ?_⟩
    · rw [Block.map_definition_name]
      exact hnames
    · rw [List.filterMap_map]
      exact huuids
  have hclash' := hclash.perm hdefinitions
  have hexists : ∃ σ, Renumbers σ ⟨blocks.map (Block.definition o.separator)⟩
      ⟨blocks'.map (Block.definition o.separator)⟩ := exists_renumbers hdefinitions hclash.names
  obtain ⟨σ, hσ⟩ := hexists
  rw [resolve_of_unclashing hclash, resolve_of_unclashing hclash']
  refine ⟨hdefinitions.map Definition.name, fun name => ?_, ?_, fun name => ?_, ?_⟩
  · exact (Catalog.named?_renumbers hσ o name).symm
  · exact (Catalog.rootNames_renumbers hσ o).symm
  · exact (Catalog.namedTree?_renumbers hσ o name).symm
  · refine (reports_keysDetermine hclash).firsts_perm fun d => ?_
    have hmisuses := (hperm.flatMap_right (Block.misuseReports o.separator)).mem_iff (a := d)
    rw [reports, reports, List.mem_append, List.mem_append, hmisuses]
    exact or_congr_right ⟨hσ.mem_diagnose, hσ.symm.mem_diagnose⟩

theorem resolve_perm_swapped :
    let menu : Block := ⟨.menu, "Main", [.setUuid "00000000-0000-0000-0000-000000000001",
      .addChild .menu "Main", .addChild .command "Open"], none⟩
    let command : Block := ⟨.command, "Open", [.setUuid "00000000-0000-0000-0000-000000000002",
      .addTargetTable "Missing"], none⟩
    ([menu, command].map Block.name).Nodup ∧
      ([menu, command].filterMap fun b =>
        (b.definition Options.standard.separator).uuid).Nodup ∧
      (resolve Options.standard [menu, command]).Agree
        (resolve Options.standard [command, menu]) := by
  intro menu command
  have hnames : ([menu, command].map Block.name).Nodup := by decide
  have huuids : ([menu, command].filterMap fun b =>
      (b.definition Options.standard.separator).uuid).Nodup := by decide +kernel
  exact ⟨hnames, huuids, resolve_perm _ (List.Perm.swap command menu []) hnames huuids⟩

end UiCatalog
