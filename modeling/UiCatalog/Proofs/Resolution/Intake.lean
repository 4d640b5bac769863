import Mathlib.Data.List.Pairwise
import UiCatalog.Proofs.Definition.Head
import UiCatalog.Proofs.Registry.Indexed
import UiCatalog.Resolution
/-!
# What an intake takes in

Blocks whose names and whose UUIDs are distinct are all registered, in order, and nothing but their
misused statements is reported. If anything clashes, that is reported as well.
-/

namespace UiCatalog

/-- Whether no name and no UUID occurs twice in a list of definitions. -/
structure Unclashing (ds : List Definition) : Prop where
  names : (ds.map Definition.name).Nodup
  uuids : (ds.filterMap Definition.uuid).Nodup

private theorem Unclashing.nil : Unclashing [] :=
  ⟨List.nodup_nil, List.nodup_nil⟩

private theorem Unclashing.of_append {ds ds' : List Definition} (h : Unclashing (ds ++ ds')) :
    Unclashing ds := by
  refine ⟨?_, ?_⟩
  · have hnames := h.names
    rw [List.map_append] at hnames
    exact hnames.of_append_left
  · have huuids := h.uuids
    rw [List.filterMap_append] at huuids
    exact huuids.of_append_left

theorem Unclashing.perm {ds ds' : List Definition} (h : Unclashing ds) (hperm : ds.Perm ds') :
    Unclashing ds' :=
  ⟨(hperm.map _).nodup_iff.mp h.names, (hperm.filterMap _).nodup_iff.mp h.uuids⟩

theorem Unclashing.eq_of_name {ds : List Definition} (h : Unclashing ds) {d e : Definition}
    (hd : d ∈ ds) (he : e ∈ ds) (hname : d.name = e.name) : d = e :=
  List.inj_on_of_nodup_map h.names hd he hname

theorem Unclashing.eq_of_uuid {ds : List Definition} (h : Unclashing ds) {d e : Definition}
    {uuid : Uuid} (hd : d ∈ ds) (he : e ∈ ds) (hduuid : d.uuid = some uuid)
    (heuuid : e.uuid = some uuid) : d = e := by
  let Apart (x y : Definition) : Prop := ∀ u ∈ x.uuid, ∀ v ∈ y.uuid, u ≠ v
  have hpairs : ds.Pairwise Apart := List.pairwise_filterMap.mp h.uuids
  have hsymm : Std.Symm Apart := ⟨fun _ _ hxy u hu v hv heq => hxy v hv u hu heq.symm⟩
  by_contra hne
  exact hpairs.forall hd he hne uuid hduuid uuid heuuid rfl

theorem Registry.conflict?_eq_none_iff {r : Registry} {d : Definition} :
    r.conflict? d = none ↔ (∀ e ∈ r.definitions, e.name ≠ d.name) ∧
      ∀ uuid ∈ d.uuid, ∀ e ∈ r.definitions, e.uuid ≠ some uuid := by
  unfold conflict?
  cases hname : r.definitions.find? (·.name == d.name) with
  | some existing =>
    have hmem := List.mem_of_find?_eq_some hname
    have heq : existing.name = d.name := by simpa using List.find?_some hname
    simp only [reduceCtorEq, false_iff, not_and]
    exact fun hnot => absurd heq (hnot existing hmem)
  | none =>
    have hnot : ∀ e ∈ r.definitions, e.name ≠ d.name := by simpa using hname
    cases d.uuid with
    | none => simpa using hnot
    | some uuid =>
      simp only [Option.map_eq_none_iff, List.find?_eq_none, Option.mem_def, Option.some.injEq,
        forall_eq', beq_iff_eq]
      exact ⟨fun huuid => ⟨hnot, huuid⟩, And.right⟩

private theorem Unclashing.conflict?_eq_none_iff {r : Registry} {d : Definition}
    (h : Unclashing r.definitions) :
    r.conflict? d = none ↔ Unclashing (r.definitions ++ [d]) := by
  have hnames : ((r.definitions ++ [d]).map Definition.name).Nodup ↔
      ∀ e ∈ r.definitions, e.name ≠ d.name := by
    rw [List.map_append, List.map_singleton, List.nodup_append]
    simp [h.names]
  have huuids : ((r.definitions ++ [d]).filterMap Definition.uuid).Nodup ↔
      ∀ uuid ∈ d.uuid, ∀ e ∈ r.definitions, e.uuid ≠ some uuid := by
    rw [List.filterMap_append, List.nodup_append]
    cases huuid : d.uuid with
    | none => simp [huuid, h.uuids]
    | some uuid =>
      simp only [h.uuids, List.filterMap_cons_some huuid, List.filterMap_nil, List.nodup_singleton,
        true_and, List.mem_filterMap, List.mem_singleton, Option.mem_def, Option.some.injEq,
        forall_eq']
      exact ⟨fun hne e he heq => hne uuid ⟨e, he, heq⟩ uuid rfl rfl,
        fun hne _ ⟨e, he, heq⟩ _ hu hv => hne e he (heq.trans (congrArg some (hv.trans hu)))⟩
  rw [Registry.conflict?_eq_none_iff]
  exact ⟨fun hfree => ⟨hnames.mpr hfree.1, huuids.mpr hfree.2⟩,
    fun hclash => ⟨hnames.mp hclash.names, huuids.mp hclash.uuids⟩⟩

namespace Block

def misuseReports (separator : Char) (b : Block) : List Diagnostic :=
  (Definition.ofBlock separator b).2.map fun misuse =>
    Diagnostic.ofProblem ⟨b.name, .invalidStatement misuse.message⟩ b.origin

end Block

namespace Intake

theorem add_of_conflict?_eq_none {separator : Char} {i : Intake} {b : Block}
    (h : i.registry.conflict? (b.definition separator) = none) :
    i.add separator b = ⟨⟨i.registry.definitions ++ [b.definition separator]⟩,
      i.log.append (b.misuseReports separator)⟩ := by
  have hregister : i.registry.register (Definition.ofBlock separator b).1 =
      .ok (⟨i.registry.definitions ++ [b.definition separator]⟩, i.registry.size) := by
    unfold Registry.register
    split
    · rename_i problem hsome
      exact absurd (hsome.symm.trans h) (by simp)
    · rfl
  simp only [add, hregister, Definition.ofBlock_name, Definition.ofBlock_origin]
  rfl

theorem add_of_conflict? {separator : Char} {i : Intake} {b : Block} {problem : Problem}
    (h : i.registry.conflict? (b.definition separator) = some problem) :
    i.add separator b =
      ⟨i.registry, (i.log.append (b.misuseReports separator)).report problem b.origin⟩ := by
  have hregister : i.registry.register (Definition.ofBlock separator b).1 = .error problem := by
    unfold Registry.register
    split
    · rename_i problem' hsome
      exact congrArg _ (Option.some.inj (hsome.symm.trans h))
    · rename_i hnone
      exact absurd (hnone.symm.trans h) (by simp)
  simp only [add, hregister, Definition.ofBlock_name, Definition.ofBlock_origin]
  rfl

/-- After the misused statements of a block comes its conflict, if there is one. -/
theorem add_log_entries (separator : Char) (i : Intake) (b : Block) :
    (i.add separator b).log.entries = i.log.entries ++ b.misuseReports separator ++
      (i.registry.conflict? (b.definition separator)).toList.map
        (Diagnostic.ofProblem · b.origin) := by
  cases hconflict : i.registry.conflict? (b.definition separator) with
  | none => simp [add_of_conflict?_eq_none hconflict, Log.append]
  | some problem => simp [add_of_conflict? hconflict, Log.append, Log.report]

private theorem foldl_add_of_unclashing {separator : Char} {blocks : List Block} {i : Intake}
    (h : Unclashing (i.registry.definitions ++ blocks.map (Block.definition separator))) :
    blocks.foldl (add separator) i =
      ⟨⟨i.registry.definitions ++ blocks.map (Block.definition separator)⟩,
        i.log.append (blocks.flatMap (Block.misuseReports separator))⟩ := by
  induction blocks generalizing i with
  | nil => simp [Log.append]
  | cons b blocks ih =>
    rw [List.map_cons, List.append_cons] at h
    have hconflict : i.registry.conflict? (b.definition separator) = none :=
      h.of_append.of_append.conflict?_eq_none_iff.mpr h.of_append
    rw [List.foldl_cons, add_of_conflict?_eq_none hconflict, ih h]
    simp [Log.append]

/-- Blocks without clashes are all registered, and only misused statements are reported. -/
theorem ofBlocks_of_unclashing {separator : Char} {blocks : List Block} (log : Log)
    (h : Unclashing (blocks.map (Block.definition separator))) :
    ofBlocks log separator blocks = ⟨⟨blocks.map (Block.definition separator)⟩,
      log.append (blocks.flatMap (Block.misuseReports separator))⟩ :=
  foldl_add_of_unclashing (i := ⟨Registry.empty, log⟩) h

/-- What is registered are the definitions of some of the blocks, in order and without a clash. -/
private theorem foldl_add_registry (separator : Char) (blocks : List Block) {i : Intake}
    (hi : Unclashing i.registry.definitions) :
    ∃ accepted : List Block, accepted.Sublist blocks ∧
      (blocks.foldl (add separator) i).registry.definitions =
        i.registry.definitions ++ accepted.map (Block.definition separator) ∧
      Unclashing (blocks.foldl (add separator) i).registry.definitions := by
  induction blocks generalizing i with
  | nil => exact ⟨[], List.Sublist.refl [], by simp, hi⟩
  | cons b blocks ih =>
    rw [List.foldl_cons]
    cases hconflict : i.registry.conflict? (b.definition separator) with
    | none =>
      have hadd : (i.add separator b).registry.definitions =
          i.registry.definitions ++ [b.definition separator] := by
        rw [add_of_conflict?_eq_none hconflict]
      have hnext : Unclashing (i.add separator b).registry.definitions := by
        rw [hadd]
        exact hi.conflict?_eq_none_iff.mp hconflict
      obtain ⟨accepted, hsub, heq, hclash⟩ := ih hnext
      refine ⟨b :: accepted, hsub.cons_cons b, ?_, hclash⟩
      rw [heq, hadd, List.map_cons, ← List.append_cons]
    | some problem =>
      have hadd : (i.add separator b).registry = i.registry := by
        rw [add_of_conflict? hconflict]
      obtain ⟨accepted, hsub, heq, hclash⟩ := ih (hadd ▸ hi)
      exact ⟨accepted, hsub.cons b, hadd ▸ heq, hclash⟩

theorem exists_accepted (log : Log) (separator : Char) (blocks : List Block) :
    ∃ accepted : List Block, accepted.Sublist blocks ∧
      (ofBlocks log separator blocks).registry = ⟨accepted.map (Block.definition separator)⟩ ∧
      Unclashing (accepted.map (Block.definition separator)) := by
  obtain ⟨accepted, hsub, heq, hclash⟩ :=
    foldl_add_registry separator blocks (i := ⟨Registry.empty, log⟩) Unclashing.nil
  have hdefinitions : (ofBlocks log separator blocks).registry.definitions =
      accepted.map (Block.definition separator) := heq
  refine ⟨accepted, hsub, congrArg Registry.mk hdefinitions, ?_⟩
  rw [← hdefinitions]
  exact hclash

private theorem foldl_add_registry_eq (separator : Char) (blocks : List Block) (i : Intake) :
    (blocks.foldl (add separator) i).registry =
      (i.registry.registerAll (blocks.map (Block.definition separator))).1 := by
  induction blocks generalizing i with
  | nil => rfl
  | cons b blocks ih =>
    rw [List.foldl_cons, ih, List.map_cons, Registry.registerAll, Registry.register]
    cases hconflict : i.registry.conflict? (b.definition separator) with
    | none => rw [add_of_conflict?_eq_none hconflict]
    | some problem => rw [add_of_conflict? hconflict]

/-- An intake holds what an indexed registry comes to hold. -/
theorem ofBlocks_registry_eq_toRegistry (log : Log) (separator : Char) (blocks : List Block) :
    (ofBlocks log separator blocks).registry =
      (OpenRegistry.empty.registerAll (blocks.map (Block.definition separator))).1.toRegistry := by
  rw [(OpenRegistry.registerAll_simulates _).1.definitions]
  exact foldl_add_registry_eq separator blocks ⟨Registry.empty, log⟩

end Intake

end UiCatalog
