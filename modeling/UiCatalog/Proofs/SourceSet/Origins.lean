import UiCatalog.Proofs.Extension.Catalog
import UiCatalog.Proofs.Resolution.Lossless
import UiCatalog.Proofs.SourceSet.Growth
/-!
# Origins in a load

In a load of a source set whose numbers are places, the origin of whatever is read or reported names
the source from whose text it was read.
-/

namespace UiCatalog

/-- Whether a diagnostic is of a fault in the text of a source or of a block that the text holds. -/
inductive Source.Yields (s : Source) (d : Diagnostic) : Prop where
  | fault (mem : d ∈ s.diagnose (Document.ofText s.id s.text))
  | block {b : Block} (mem : b ∈ (Document.ofText s.id s.text).blocks)
      (origin : d.origin = b.origin) (subject : d.subject = b.name)

namespace SourceSet

/-- Whether what a load of a set shows has its origin in the source from which it was read. -/
structure TracesOrigins (s : SourceSet) (o : Options) : Prop where
  blocks : ∀ b ∈ s.blocks, ∃ origin source, b.origin = some origin ∧
    s.get? origin.source = some source ∧ b ∈ (Document.ofText source.id source.text).blocks
  definitions : ∀ d ∈ (s.load o).catalog.registry.definitions, ∃ b ∈ s.blocks,
    d = b.definition o.separator ∧ d.origin = b.origin
  diagnostics : ∀ d ∈ (s.load o).diagnostics, ∃ origin source, d.origin = some origin ∧
    s.get? origin.source = some source ∧ source.Yields d

variable {s : SourceSet} {o : Options}

private theorem mem_blocks {b : Block} :
    b ∈ s.blocks ↔ ∃ source ∈ s.sources, b ∈ (Document.ofText source.id source.text).blocks :=
  List.mem_flatMap

private theorem IsDense.get?_id (hs : s.IsDense) {source : Source} (h : source ∈ s.sources) :
    s.get? source.id = some source := by
  obtain ⟨i, hi⟩ := List.getElem?_of_mem h
  rw [get?, hs i source hi, hi]

private theorem origin_of_mem_ofText {source : SourceId} {text : String} {b : Block}
    (h : b ∈ (Document.ofText source text).blocks) : ∃ span, b.origin = some ⟨source, span⟩ := by
  obtain ⟨⟨block, extent⟩, -, rfl⟩ := List.mem_map.mp h
  exact ⟨_, rfl⟩

private theorem IsDense.blocks (hs : s.IsDense) {b : Block} (h : b ∈ s.blocks) :
    ∃ origin source, b.origin = some origin ∧ s.get? origin.source = some source ∧
      b ∈ (Document.ofText source.id source.text).blocks := by
  obtain ⟨source, hsource, hb⟩ := mem_blocks.mp h
  obtain ⟨span, horigin⟩ := origin_of_mem_ofText hb
  exact ⟨_, source, horigin, hs.get?_id hsource, hb⟩

private theorem IsDense.yields_of_block (hs : s.IsDense) {b : Block} (hb : b ∈ s.blocks)
    {d : Diagnostic} (horigin : d.origin = b.origin) (hsubject : d.subject = b.name) :
    ∃ origin source, d.origin = some origin ∧ s.get? origin.source = some source ∧
      source.Yields d := by
  obtain ⟨origin, source, hb', hsource, hmem⟩ := hs.blocks hb
  exact ⟨origin, source, horigin.trans hb', hsource, .block hmem horigin hsubject⟩

private theorem IsDense.yields_of_fault (hs : s.IsDense) {d : Diagnostic} (h : d ∈ s.faultReports) :
    ∃ origin source, d.origin = some origin ∧ s.get? origin.source = some source ∧
      source.Yields d := by
  obtain ⟨source, hsource, hd⟩ := List.mem_flatMap.mp h
  obtain ⟨f, -, rfl⟩ := List.mem_map.mp hd
  exact ⟨_, _, rfl, hs.get?_id hsource, .fault hd⟩

private theorem load_registry (o : Options) (s : SourceSet) : (s.load o).catalog.registry =
    Blocks.registry o.separator (Blocks.accepted o.separator s.blocks) := by
  rw [load_eq, ← Blocks.ofBlocks_registry ⟨s.faultReports⟩]
  rfl

private theorem exists_block_of_mem_registry {d : Definition}
    (h : d ∈ (s.load o).catalog.registry.definitions) :
    ∃ b ∈ s.blocks, b.definition o.separator = d := by
  rw [load_registry] at h
  obtain ⟨b, hb, hd⟩ := Blocks.mem_registry.mp h
  exact ⟨b, Blocks.mem_of_mem_accepted hb, hd⟩

private theorem IsDense.yields_of_problem (hs : s.IsDense) {h : Handle} {p : Problem}
    (hp : (h, p) ∈ (s.load o).catalog.registry.problems o) :
    ∃ origin source,
      (Diagnostic.ofProblem p
        (((s.load o).catalog.registry.get? h).bind Definition.origin)).origin = some origin ∧
      s.get? origin.source = some source ∧
      source.Yields (Diagnostic.ofProblem p
        (((s.load o).catalog.registry.get? h).bind Definition.origin)) := by
  have hget := Registry.get?_eq_getElem (Registry.lt_of_mem_problems hp)
  obtain ⟨b, hb, hdefinition⟩ := exists_block_of_mem_registry (List.mem_of_getElem? hget)
  rw [← hdefinition] at hget
  refine hs.yields_of_block hb ?_ ?_
  · rw [hget]
    exact Block.definition_origin o.separator b
  · exact (Registry.subject_of_mem_problems hp).trans
      ((Registry.name_of_get? hget).trans (Block.definition_name o.separator b))

private theorem IsDense.yields (hs : s.IsDense) {d : Diagnostic} (h : d ∈ s.reported o) :
    ∃ origin source, d.origin = some origin ∧ s.get? origin.source = some source ∧
      source.Yields d := by
  have hintake := Blocks.ofBlocks_log_entries ⟨s.faultReports⟩ o.separator s.blocks
  rw [reported, Blocks.reported_eq, ← List.append_assoc, ← hintake, ← load_registry] at h
  rcases List.mem_append.mp h with hd | hd
  · rcases Blocks.mem_ofBlocks_log.mp hd with hd | ⟨b, hb, hd⟩ | ⟨b, p, hrejects, rfl⟩
    · exact hs.yields_of_fault hd
    · refine hs.yields_of_block hb ?_ (Block.plain_of_mem_misuseReports hd).subject_eq
      obtain ⟨misuse, -, rfl⟩ := List.mem_map.mp hd
      rfl
    · have hb : b ∈ s.blocks := (Blocks.mem_iff o.separator s.blocks).mpr (.inr ⟨p, hrejects⟩)
      obtain ⟨earlier, later, -, hrefused⟩ := hrejects
      have hplain := Registry.plain_of_conflict? (Blocks.conflict?_eq_some_iff.mpr hrefused)
      exact hs.yields_of_block hb rfl (hplain.subject_eq.trans (Block.definition_name _ b))
  · obtain ⟨h, p, hp, rfl⟩ := Registry.mem_diagnose_iff.mp hd
    exact hs.yields_of_problem hp

private theorem IsDense.tracesOrigins (hs : s.IsDense) (o : Options) : s.TracesOrigins o where
  blocks _ hb := hs.blocks hb
  definitions d hd := by
    obtain ⟨b, hb, rfl⟩ := exists_block_of_mem_registry hd
    exact ⟨b, hb, rfl, Block.definition_origin o.separator b⟩
  diagnostics d hd := by
    rw [load_diagnostics] at hd
    exact hs.yields ((Diagnostic.firsts_sublist [] _).mem hd)

/-! ## Source sets -/

/-- What holds of a source set at any time. -/
structure GrowsForwards (s : SourceSet) : Prop where
  dense : s.IsDense
  stands : ∀ a : Addition, s.sources <+: (a.apply s).sources
  file : ∀ t path, FileOutcome t s path (s.addFile t path).1 (s.addFile t path).2
  directory : ∀ t o directory, DirectoryOutcome t o s directory
    (s.addDirectory t o directory).1 (s.addDirectory t o directory).2
  traced : ∀ o, s.TracesOrigins o

/-- Whatever is added, and whatever fails on the way, the numbers of sources stay their places,
sources stay where they are, and origins lead back to their sources. -/
theorem ofAdditions_growsForwards (additions : List Addition) :
    (ofAdditions additions).GrowsForwards ∧
      ∀ later, (ofAdditions additions).sources <+: (ofAdditions (additions ++ later)).sources :=
  ⟨⟨isDense_ofAdditions additions, fun a => (grows_apply _ a).prefix_sources,
    fun t path => addFile_outcome t _ path,
    fun t o directory => addDirectory_outcome t o _ directory,
    (isDense_ofAdditions additions).tracesOrigins⟩, prefix_ofAdditions additions⟩

end SourceSet

end UiCatalog
