import UiCatalog.Proofs.Resolution.Order
/-!
# Rejected blocks

A block is accepted if it shares neither its name nor its UUID with a block that was accepted before
it. The others leave no trace in the catalog, as if they had not been there, and only their own
misused statements and one conflict for each of them are reported in addition.
-/

namespace UiCatalog

def Block.uuid? (separator : Char) (b : Block) : Option Uuid :=
  (b.definition separator).uuid

/-- Whether two blocks share their name or their UUID. -/
def Block.Clashes (separator : Char) (a b : Block) : Prop :=
  a.name = b.name ∨ b.uuid? separator ≠ none ∧ a.uuid? separator = b.uuid? separator
deriving Decidable

namespace Blocks

/-- The blocks that clash with no block that was accepted before, in order. -/
def accepted (separator : Char) (blocks : List Block) : List Block :=
  blocks.foldl (fun kept b => if ∃ a ∈ kept, a.Clashes separator b then kept else kept ++ [b]) []

/-- What is reported about a block that clashes with one of those accepted before: its name is
taken, or else its UUID is. -/
inductive Refused (separator : Char) (kept : List Block) (b : Block) : Problem → Prop where
  | name {a : Block} (ha : a ∈ kept) (hname : a.name = b.name) :
      Refused separator kept b ⟨b.name, .duplicateName a.kind⟩
  | uuid {a : Block} {uuid : Uuid} (hfree : ∀ c ∈ kept, c.name ≠ b.name) (ha : a ∈ kept)
      (hb : b.uuid? separator = some uuid) (huuid : a.uuid? separator = some uuid) :
      Refused separator kept b ⟨b.name, .duplicateUuid uuid a.name⟩

/-- Whether a block of a list is rejected with a problem. -/
def Rejects (separator : Char) (blocks : List Block) (b : Block) (p : Problem) : Prop :=
  ∃ earlier later, blocks = earlier ++ b :: later ∧
    Refused separator (accepted separator earlier) b p

variable {separator : Char} {blocks kept : List Block} {b c : Block} {p : Problem}

theorem accepted_append_singleton :
    accepted separator (blocks ++ [b]) =
      if ∃ a ∈ accepted separator blocks, a.Clashes separator b then accepted separator blocks
      else accepted separator blocks ++ [b] := by
  rw [accepted, List.foldl_append]
  rfl

/-- A rejected block has no effect on which other blocks are accepted. -/
private theorem accepted_of_clash (later : List Block)
    (hclash : ∃ a ∈ accepted separator blocks, a.Clashes separator b) :
    accepted separator (blocks ++ b :: later) = accepted separator (blocks ++ later) := by
  have hstep : accepted separator (blocks ++ [b]) = accepted separator blocks :=
    accepted_append_singleton.trans (if_pos hclash)
  rw [List.append_cons, accepted, List.foldl_append, ← accepted, hstep, accepted, accepted,
    List.foldl_append]

private theorem rejects_append_singleton :
    Rejects separator (blocks ++ [c]) b p ↔ Rejects separator blocks b p ∨
      b = c ∧ Refused separator (accepted separator blocks) c p := by
  constructor
  · rintro ⟨earlier, later, heq, hp⟩
    rcases List.eq_nil_or_concat later with rfl | ⟨later, last, rfl⟩
    · obtain ⟨rfl, rfl⟩ := List.append_singleton_inj.mp heq
      exact Or.inr ⟨rfl, hp⟩
    · rw [List.concat_eq_append, ← List.cons_append, ← List.append_assoc] at heq
      exact Or.inl ⟨earlier, later, (List.append_singleton_inj.mp heq).1, hp⟩
  · rintro (⟨earlier, later, rfl, hp⟩ | ⟨rfl, hp⟩)
    · exact ⟨earlier, later ++ [c], by simp, hp⟩
    · exact ⟨blocks, [], rfl, hp⟩

/-! ## Conflicts with accepted blocks -/

def registry (separator : Char) (blocks : List Block) : Registry :=
  ⟨blocks.map (Block.definition separator)⟩

theorem mem_registry {d : Definition} :
    d ∈ (registry separator blocks).definitions ↔ ∃ a ∈ blocks, a.definition separator = d :=
  List.mem_map

theorem conflict?_eq_none_iff :
    (registry separator kept).conflict? (b.definition separator) = none ↔
      ¬∃ a ∈ kept, a.Clashes separator b := by
  simp only [Registry.conflict?_eq_none_iff, registry, List.forall_mem_map, Block.definition_name]
  constructor
  · rintro ⟨hname, huuid⟩ ⟨a, ha, heq | ⟨hsome, heq⟩⟩
    · exact hname a ha heq
    · obtain ⟨uuid, hb⟩ := Option.ne_none_iff_exists'.mp hsome
      exact huuid uuid hb a ha (heq.trans hb)
  · intro hfree
    refine ⟨fun a ha heq => hfree ⟨a, ha, Or.inl heq⟩, fun uuid hb a ha heq => ?_⟩
    exact hfree ⟨a, ha, Or.inr ⟨Option.ne_none_iff_exists'.mpr ⟨uuid, hb⟩, heq.trans hb.symm⟩⟩

private theorem refused_of_conflict?
    (hp : (registry separator kept).conflict? (b.definition separator) = some p) :
    Refused separator kept b p := by
  unfold Registry.conflict? at hp
  split at hp
  · rename_i existing hfind
    obtain ⟨a, ha, rfl⟩ := mem_registry.mp (List.mem_of_find?_eq_some hfind)
    obtain rfl := Option.some.inj hp
    rw [Block.definition_name, Block.definition_kind]
    exact .name ha (by simpa using List.find?_some hfind)
  · rename_i hfind
    split at hp
    · simp at hp
    · rename_i uuid hb
      obtain ⟨owner, howner, rfl⟩ := Option.map_eq_some_iff.mp hp
      obtain ⟨a, ha, rfl⟩ := mem_registry.mp (List.mem_of_find?_eq_some howner)
      rw [Block.definition_name, Block.definition_name]
      exact .uuid (by simpa [registry] using hfind) ha hb
        (by simpa [Block.uuid?] using List.find?_some howner)

private theorem Refused.unique (hkept : Unclashing (registry separator kept).definitions)
    {q : Problem} (hp : Refused separator kept b p) (hq : Refused separator kept b q) : p = q := by
  have hmem {a : Block} (ha : a ∈ kept) :
      a.definition separator ∈ (registry separator kept).definitions :=
    mem_registry.mpr ⟨a, ha, rfl⟩
  cases hp with
  | @name a ha hname =>
    cases hq with
    | @name c hc hname' =>
      have hsame : a.definition separator = c.definition separator :=
        hkept.eq_of_name (hmem ha) (hmem hc) (by simp [hname, hname'])
      have hkind : a.kind = c.kind := by simpa using congrArg Definition.kind hsame
      rw [hkind]
    | uuid hfree => exact absurd hname (hfree _ ha)
  | @uuid a uuid hfree ha hb huuid =>
    cases hq with
    | @name c hc hname => exact absurd hname (hfree _ hc)
    | @uuid c uuid' _ hc hb' huuid' =>
      obtain rfl : uuid = uuid' := Option.some.inj (hb.symm.trans hb')
      have hsame : a.definition separator = c.definition separator :=
        hkept.eq_of_uuid (hmem ha) (hmem hc) huuid huuid'
      have hname : a.name = c.name := by simpa using congrArg Definition.name hsame
      rw [hname]

/-! ## Intakes of accepted and rejected blocks -/

theorem ofBlocks_append_singleton (log : Log) :
    Intake.ofBlocks log separator (blocks ++ [b]) =
      (Intake.ofBlocks log separator blocks).add separator b := by
  rw [Intake.ofBlocks, List.foldl_concat, ← Intake.ofBlocks]

/-- The definitions of the accepted blocks are registered, and no others. -/
theorem ofBlocks_registry (log : Log) (separator : Char) (blocks : List Block) :
    (Intake.ofBlocks log separator blocks).registry =
      registry separator (accepted separator blocks) := by
  induction blocks using List.reverseRecOn with
  | nil => rfl
  | append_singleton blocks b ih =>
    rw [ofBlocks_append_singleton, accepted_append_singleton]
    cases hconflict : (Intake.ofBlocks log separator blocks).registry.conflict?
        (b.definition separator) with
    | none =>
      have hfree := conflict?_eq_none_iff.mp (ih ▸ hconflict)
      rw [Intake.add_of_conflict?_eq_none hconflict, if_neg hfree, ih]
      simp [registry]
    | some p =>
      have hclash : ∃ a ∈ accepted separator blocks, a.Clashes separator b := by
        by_contra hfree
        rw [ih, conflict?_eq_none_iff.mpr hfree] at hconflict
        simp at hconflict
      rw [Intake.add_of_conflict? hconflict, if_pos hclash, ih]

theorem unclashing_accepted (separator : Char) (blocks : List Block) :
    Unclashing (registry separator (accepted separator blocks)).definitions := by
  obtain ⟨kept, _, hregistry, hkept⟩ := Intake.exists_accepted Log.empty separator blocks
  rw [← ofBlocks_registry Log.empty, hregistry]
  exact hkept

private theorem exists_conflict? (hclash : ∃ a ∈ kept, a.Clashes separator b) :
    ∃ p, (registry separator kept).conflict? (b.definition separator) = some p :=
  Option.ne_none_iff_exists'.mp fun hnone => conflict?_eq_none_iff.mp hnone hclash

theorem conflict?_eq_some_iff :
    (registry separator (accepted separator blocks)).conflict? (b.definition separator) = some p ↔
      Refused separator (accepted separator blocks) b p := by
  refine ⟨refused_of_conflict?, fun hp => ?_⟩
  have hclash : ∃ a ∈ accepted separator blocks, a.Clashes separator b := by
    cases hp with
    | name ha hname => exact ⟨_, ha, Or.inl hname⟩
    | uuid _ ha hb huuid =>
      exact ⟨_, ha, Or.inr ⟨Option.ne_none_iff_exists'.mpr ⟨_, hb⟩, huuid.trans hb.symm⟩⟩
  obtain ⟨q, hq⟩ := exists_conflict? hclash
  rw [hq, (refused_of_conflict? hq).unique (unclashing_accepted separator blocks) hp]

private theorem existsUnique_refused
    (hclash : ∃ a ∈ accepted separator blocks, a.Clashes separator b) :
    ∃! p, Refused separator (accepted separator blocks) b p := by
  obtain ⟨p, hp⟩ := exists_conflict? hclash
  have hrefused := refused_of_conflict? hp
  exact ⟨p, hrefused, fun q hq => hq.unique (unclashing_accepted separator blocks) hrefused⟩

theorem mem_iff (separator : Char) (blocks : List Block) : b ∈ blocks ↔
    b ∈ accepted separator blocks ∨ ∃ p, Rejects separator blocks b p := by
  induction blocks using List.reverseRecOn with
  | nil => simp [accepted, Rejects]
  | append_singleton blocks c ih =>
    simp only [List.mem_append, List.mem_singleton, ih, accepted_append_singleton,
      rejects_append_singleton, exists_or]
    split
    · rename_i hclash
      obtain ⟨p, hp, _⟩ := existsUnique_refused hclash
      have hc : (∃ p, b = c ∧ Refused separator (accepted separator blocks) c p) ↔ b = c :=
        ⟨fun ⟨_, heq, _⟩ => heq, fun heq => ⟨p, heq, hp⟩⟩
      rw [hc, or_assoc]
    · rename_i hfree
      have hc : ¬∃ p, b = c ∧ Refused separator (accepted separator blocks) c p := by
        rintro ⟨p, _, hp⟩
        rw [← conflict?_eq_some_iff, conflict?_eq_none_iff.mpr hfree] at hp
        simp at hp
      rw [List.mem_append, List.mem_singleton, or_iff_left hc, or_right_comm]

theorem mem_of_mem_accepted (hb : b ∈ accepted separator blocks) : b ∈ blocks :=
  (mem_iff separator blocks).mpr (Or.inl hb)

/-- An intake reports misused statements of all blocks and the conflicts of the rejected ones. -/
theorem mem_ofBlocks_log {log : Log} {d : Diagnostic} :
    d ∈ (Intake.ofBlocks log separator blocks).log.entries ↔ d ∈ log.entries ∨
      (∃ b ∈ blocks, d ∈ b.misuseReports separator) ∨
      ∃ b p, Rejects separator blocks b p ∧ Diagnostic.ofProblem p b.origin = d := by
  induction blocks using List.reverseRecOn with
  | nil => simp [Intake.ofBlocks, Rejects]
  | append_singleton blocks c ih =>
    have hconflict {p : Problem} : p ∈ ((Intake.ofBlocks log separator blocks).registry.conflict?
        (c.definition separator)).toList ↔ Refused separator (accepted separator blocks) c p := by
      rw [Option.mem_toList, ofBlocks_registry, conflict?_eq_some_iff]
    have hblocks : (∃ b ∈ blocks ++ [c], d ∈ b.misuseReports separator) ↔
        (∃ b ∈ blocks, d ∈ b.misuseReports separator) ∨ d ∈ c.misuseReports separator := by
      simp [or_and_right, exists_or]
    have hrejects : (∃ b p, Rejects separator (blocks ++ [c]) b p ∧
          Diagnostic.ofProblem p b.origin = d) ↔
        (∃ b p, Rejects separator blocks b p ∧ Diagnostic.ofProblem p b.origin = d) ∨
        ∃ p, Refused separator (accepted separator blocks) c p ∧
          Diagnostic.ofProblem p c.origin = d := by
      simp [rejects_append_singleton, or_and_right, exists_or, and_assoc]
    rw [ofBlocks_append_singleton, Intake.add_log_entries, List.mem_append, List.mem_append, ih,
      List.mem_map, hblocks, hrejects]
    simp only [hconflict, or_assoc, or_left_comm]

/-- Whether a diagnostic is about a block of a list that is rejected: one of its misused statements,
or its conflict. -/
def ReportsRejected (separator : Char) (blocks : List Block) (d : Diagnostic) : Prop :=
  ∃ b p, Rejects separator blocks b p ∧
    (d ∈ b.misuseReports separator ∨ d = Diagnostic.ofProblem p b.origin)

private theorem mem_ofBlocks_log_accepted {log : Log} {d : Diagnostic} :
    d ∈ (Intake.ofBlocks log separator blocks).log.entries ↔
      d ∈ log.entries ∨ (∃ b ∈ accepted separator blocks, d ∈ b.misuseReports separator) ∨
      ReportsRejected separator blocks d := by
  have hmisuses : (∃ b ∈ blocks, d ∈ b.misuseReports separator) ↔
      (∃ b ∈ accepted separator blocks, d ∈ b.misuseReports separator) ∨
      ∃ b p, Rejects separator blocks b p ∧ d ∈ b.misuseReports separator := by
    simp only [mem_iff separator blocks, or_and_right, exists_or,
      exists_and_right]
  rw [mem_ofBlocks_log, hmisuses]
  simp only [ReportsRejected, and_or_left, exists_or, or_assoc, eq_comm]

theorem plain_of_mem_ofBlocks_log {log : Log} (hlog : ∀ d ∈ log.entries, ∃ subject, d.Plain subject)
    (separator : Char) (blocks : List Block) :
    ∀ d ∈ (Intake.ofBlocks log separator blocks).log.entries, ∃ subject, d.Plain subject := by
  intro d hd
  rcases mem_ofBlocks_log.mp hd with hd | ⟨b, _, hd⟩ | ⟨b, p, ⟨earlier, _, _, hp⟩, rfl⟩
  · exact hlog d hd
  · exact ⟨b.name, Block.plain_of_mem_misuseReports hd⟩
  · exact ⟨_, p, b.origin, Registry.plain_of_conflict? (conflict?_eq_some_iff.mpr hp), rfl⟩

end Blocks

theorem resolve_catalog (o : Options) (blocks : List Block) :
    (resolve o blocks).catalog =
      (Catalog.ofRegistry o
        (Blocks.registry o.separator (Blocks.accepted o.separator blocks))).1 := by
  rw [← Blocks.ofBlocks_registry Log.empty]
  rfl

theorem resolve_diagnostics (o : Options) (blocks : List Block) :
    (resolve o blocks).diagnostics = Diagnostic.firsts []
      ((Intake.ofBlocks Log.empty o.separator blocks).log.entries ++
        (Blocks.registry o.separator (Blocks.accepted o.separator blocks)).diagnose
          ((Blocks.registry o.separator (Blocks.accepted o.separator blocks)).problems o)) := by
  rw [← Blocks.ofBlocks_registry Log.empty]
  rfl

private theorem mem_resolve_diagnostics {o : Options} {blocks : List Block} {d : Diagnostic} :
    d ∈ (resolve o blocks).diagnostics ↔
      d ∈ reports o (Blocks.accepted o.separator blocks) ∨
        Blocks.ReportsRejected o.separator blocks d := by
  have hclash := Blocks.unclashing_accepted o.separator blocks
  have hplain : ∀ d ∈ Log.empty.entries, ∃ subject, d.Plain subject := by simp [Log.empty]
  have hkeys := Registry.NamesDistinct.keysDetermine hclash.names o
    (Blocks.plain_of_mem_ofBlocks_log hplain o.separator blocks)
  have hempty : d ∉ Log.empty.entries := List.not_mem_nil
  rw [resolve_diagnostics, hkeys.mem_firsts_iff, List.mem_append, Blocks.mem_ofBlocks_log_accepted,
    or_iff_right hempty, reports, List.mem_append, List.mem_flatMap]
  exact or_right_comm

/-- Rejected blocks leave no trace in the catalog, and each is reported for one reason. -/
theorem resolve_accepted (o : Options) (blocks : List Block) :
    (resolve o blocks).catalog =
      (resolve o (Blocks.accepted o.separator blocks)).catalog ∧
    (∀ d, d ∈ (resolve o blocks).diagnostics ↔
      d ∈ (resolve o (Blocks.accepted o.separator blocks)).diagnostics ∨
        Blocks.ReportsRejected o.separator blocks d) ∧
    ∀ earlier b later, blocks = earlier ++ b :: later →
      (∃ a ∈ Blocks.accepted o.separator earlier, a.Clashes o.separator b) →
      (∃! p, Blocks.Refused o.separator (Blocks.accepted o.separator earlier) b p) ∧
        (resolve o blocks).catalog = (resolve o (earlier ++ later)).catalog := by
  have hclash := Blocks.unclashing_accepted o.separator blocks
  refine ⟨?_, fun d => ?_, ?_⟩
  · rw [resolve_catalog, resolve_of_unclashing hclash]
    rfl
  · rw [mem_resolve_diagnostics, resolve_of_unclashing hclash,
      (reports_keysDetermine hclash).mem_firsts_iff]
  · rintro earlier b later rfl hrejected
    refine ⟨Blocks.existsUnique_refused hrejected, ?_⟩
    rw [resolve_catalog, resolve_catalog, Blocks.accepted_of_clash later hrejected]

end UiCatalog
