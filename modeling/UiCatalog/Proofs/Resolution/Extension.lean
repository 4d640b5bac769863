import UiCatalog.Proofs.Catalog.Forest
import UiCatalog.Proofs.Extension.Catalog
import UiCatalog.Proofs.Resolution.Accepted
/-!
# One more block

A block that no other one mentions comes last and disturbs nothing, whatever it mentions itself. The
entities and trees of the others stay, and so does what is reported about them, in its order.
-/

namespace UiCatalog

/-- Whether no block of a list bears or mentions the name of a new one, and no accepted one has its
UUID. -/
structure Blocks.Unknown (separator : Char) (blocks : List Block) (b : Block) : Prop where
  free : ∀ a ∈ blocks, a.name ≠ b.name
  unmentioned : ∀ a ∈ blocks, b.name ∉ (a.definition separator).mentioned
  unshared : ∀ uuid ∈ b.uuid? separator, ∀ a ∈ Blocks.accepted separator blocks,
    a.uuid? separator ≠ some uuid

/-- Whether a load yields one more entity than another, of a given name, and else the same. -/
structure Loaded.Extends (old new : Loaded) (name : String) : Prop where
  entities : ∃ e, new.catalog.entities = old.catalog.entities ++ [e] ∧ e.name = name
  trees : ∀ e ∈ old.catalog.entities, new.catalog.tree? e.name = old.catalog.tree? e.name
  diagnostics : new.diagnostics.filter (·.subject ≠ name) = old.diagnostics
  news : ∀ d ∈ new.diagnostics, d ∉ old.diagnostics → d.subject = name

namespace Registry.Unknown

variable {r : Registry} {d : Definition}

private theorem name_ne {h : Handle} (hd : r.Unknown d) (hlt : h < r.size) : r.name h ≠ d.name := by
  rw [name_of_get? (get?_eq_getElem hlt)]
  exact hd.free _ (List.getElem_mem hlt)

private theorem subject_ne_iff (hd : r.Unknown d) {o : Options} {h : Handle} {p : Problem}
    (hp : (h, p) ∈ (r.extend d).problems o) : p.subject ≠ d.name ↔ h ≠ r.size := by
  have hlt : h < r.size + 1 := by
    rw [← size_extend r d]
    exact lt_of_mem_problems hp
  rw [subject_of_mem_problems hp]
  constructor
  · rintro hne rfl
    exact hne (name_extend_size r d)
  · intro hne
    rw [name_extend d hne]
    exact hd.name_ne (Nat.lt_of_le_of_ne (Nat.le_of_lt_succ hlt) hne)

private theorem diagnose_filter (hd : r.Unknown d) (o : Options) :
    ((r.extend d).diagnose ((r.extend d).problems o)).filter (·.subject ≠ d.name) =
      r.diagnose (r.problems o) := by
  have hsubject : ∀ q ∈ (r.extend d).problems o,
      decide (q.2.subject ≠ d.name) = decide (q.1 ≠ r.size) :=
    fun q hq => decide_eq_decide.mpr (hd.subject_ne_iff hq)
  have horigin : ∀ q ∈ r.problems o, (r.extend d).get? q.1 = r.get? q.1 :=
    fun q hq => get?_extend d (Nat.ne_of_lt (lt_of_mem_problems hq))
  calc ((r.extend d).diagnose ((r.extend d).problems o)).filter (·.subject ≠ d.name)
      = (r.extend d).diagnose (((r.extend d).problems o).filter (·.2.subject ≠ d.name)) :=
        List.filter_map
    _ = (r.extend d).diagnose (r.problems o) := by
        rw [List.filter_congr hsubject, hd.problems_filter]
    _ = r.diagnose (r.problems o) := List.map_congr_left fun q hq =>
        congrArg (fun found => Diagnostic.ofProblem q.2 (found.bind Definition.origin))
          (horigin q hq)

end Registry.Unknown

namespace Blocks

variable {separator : Char} {blocks : List Block} {b : Block}

private theorem Unknown.conflict?_eq_none (hb : Unknown separator blocks b) :
    (registry separator (accepted separator blocks)).conflict? (b.definition separator) =
      none := by
  rw [conflict?_eq_none_iff]
  rintro ⟨a, ha, hname | ⟨hsome, huuid⟩⟩
  · exact hb.free a (mem_of_mem_accepted ha) hname
  · obtain ⟨uuid, huuid'⟩ := Option.ne_none_iff_exists'.mp hsome
    exact hb.unshared uuid huuid' a ha (huuid.trans huuid')

private theorem Unknown.registry_append (hb : Unknown separator blocks b) :
    registry separator (accepted separator (blocks ++ [b])) =
      (registry separator (accepted separator blocks)).extend (b.definition separator) := by
  rw [accepted_append_singleton, if_neg (conflict?_eq_none_iff.mp hb.conflict?_eq_none), registry,
    List.map_append]
  rfl

private theorem Unknown.definition (hb : Unknown separator blocks b) :
    (registry separator (accepted separator blocks)).Unknown (b.definition separator) := by
  constructor
  · intro e he
    obtain ⟨a, ha, rfl⟩ := mem_registry.mp he
    rw [Block.definition_name, Block.definition_name]
    exact hb.free a (mem_of_mem_accepted ha)
  · intro e he
    obtain ⟨a, ha, rfl⟩ := mem_registry.mp he
    rw [Block.definition_name]
    exact hb.unmentioned a (mem_of_mem_accepted ha)

private theorem subject_of_mem_ofBlocks_log {d : Diagnostic}
    (hd : d ∈ (Intake.ofBlocks Log.empty separator blocks).log.entries) :
    ∃ a ∈ blocks, d.subject = a.name := by
  rcases mem_ofBlocks_log.mp hd with hd | ⟨a, ha, hd⟩ | ⟨a, p, hp, rfl⟩
  · simp [Log.empty] at hd
  · exact ⟨a, ha, (Block.plain_of_mem_misuseReports hd).subject_eq⟩
  · refine ⟨a, (mem_iff separator blocks).mpr (Or.inr ⟨p, hp⟩), ?_⟩
    obtain ⟨_, _, _, hp⟩ := hp
    cases hp <;> rfl

/-- An intake reports about the others what it reported without an unknown block. -/
private theorem Unknown.log_filter (hb : Unknown separator blocks b) :
    (Intake.ofBlocks Log.empty separator (blocks ++ [b])).log.entries.filter
        (·.subject ≠ b.name) =
      (Intake.ofBlocks Log.empty separator blocks).log.entries := by
  have hnone : (Intake.ofBlocks Log.empty separator blocks).registry.conflict?
      (b.definition separator) = none := by
    rw [ofBlocks_registry]
    exact hb.conflict?_eq_none
  rw [ofBlocks_append_singleton, Intake.add_log_entries, hnone, Option.toList_none, List.map_nil,
    List.append_nil]
  apply filter_append_eq_left
  · intro d hd
    obtain ⟨a, ha, hsubject⟩ := subject_of_mem_ofBlocks_log hd
    simpa [hsubject] using hb.free a ha
  · intro d hd
    simp [(Block.plain_of_mem_misuseReports hd).subject_eq]

end Blocks

private theorem Blocks.Unknown.diagnostics_filter {o : Options} {blocks : List Block} {b : Block}
    (hb : Blocks.Unknown o.separator blocks b) :
    (resolve o (blocks ++ [b])).diagnostics.filter (·.subject ≠ b.name) =
      (resolve o blocks).diagnostics := by
  let log := (Intake.ofBlocks Log.empty o.separator (blocks ++ [b])).log
  let r := Blocks.registry o.separator (Blocks.accepted o.separator (blocks ++ [b]))
  have hr : r = (Blocks.registry o.separator (Blocks.accepted o.separator blocks)).extend
      (b.definition o.separator) := hb.registry_append
  have hd := hb.definition.diagnose_filter o
  rw [Block.definition_name] at hd
  calc (resolve o (blocks ++ [b])).diagnostics.filter (·.subject ≠ b.name)
      = (Diagnostic.firsts [] (log.entries ++ r.diagnose (r.problems o))).filter
          (·.subject ≠ b.name) := by rw [resolve_diagnostics]
    _ = Diagnostic.firsts []
          ((log.entries ++ r.diagnose (r.problems o)).filter (·.subject ≠ b.name)) :=
        Diagnostic.firsts_filter (·.subject ≠ b.name) [] _
    _ = (resolve o blocks).diagnostics := by
        rw [List.filter_append, hb.log_filter, hr, hd, resolve_diagnostics]

/-- A block that no other one mentions disturbs nothing. -/
theorem resolve_extends (o : Options) {blocks : List Block} {b : Block}
    (hb : Blocks.Unknown o.separator blocks b) :
    (resolve o blocks).Extends (resolve o (blocks ++ [b])) b.name := by
  have hd := hb.definition
  refine ⟨?_, fun e he => ?_, hb.diagnostics_filter, fun d hnew hold => ?_⟩
  · rw [resolve_catalog, resolve_catalog, hb.registry_append]
    obtain ⟨e, he, hname⟩ := hd.entities o
    exact ⟨e, he, hname.trans (Block.definition_name o.separator b)⟩
  · rw [resolve_catalog] at he
    obtain ⟨h, d, hget, rfl⟩ := Registry.mem_entities_iff.mp he
    rw [resolve_catalog, resolve_catalog, hb.registry_append]
    exact hd.tree?_name o (hd.free d (List.mem_of_getElem? hget))
  · by_contra hne
    rw [← hb.diagnostics_filter] at hold
    exact hold (List.mem_filter.mpr ⟨hnew, decide_eq_true hne⟩)

theorem resolve_extends_loop :
    let menu : Block := ⟨.menu, "Main", [.setUuid "00000000-0000-0000-0000-000000000001",
      .addChild .menu "Main", .addChild .command "Open"], none⟩
    let command : Block := ⟨.command, "Open", [.addTargetTable "Missing"], none⟩
    let loop : Block := ⟨.menu, "Loop", [.setUuid "00000000-0000-0000-0000-000000000002",
      .addChild .menu "Loop", .addChild .menu "Main", .addTargetForm "Open"], none⟩
    Blocks.Unknown Options.standard.separator [menu, command] loop ∧
      (resolve Options.standard [menu, command]).Extends
        (resolve Options.standard [menu, command, loop]) "Loop" := by
  intro menu command loop
  have hloop : Blocks.Unknown Options.standard.separator [menu, command] loop := by
    refine ⟨?_, ?_, ?_⟩
    · decide
    · decide +kernel
    · decide +kernel
  exact ⟨hloop, resolve_extends _ hloop⟩

end UiCatalog
