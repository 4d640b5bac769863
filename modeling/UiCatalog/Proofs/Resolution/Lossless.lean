import UiCatalog.Loading
import UiCatalog.Proofs.Resolution.Accepted
/-!
# Nothing that is reported is lost

During a load two diagnostics with one key are equal. So a load ends with the distinct diagnostics
that were reported, each where it was first reported.
-/

namespace UiCatalog

namespace Blocks

variable {separator : Char}

/-- The conflict of a block with the blocks that are accepted of those before it. -/
def conflictReport (separator : Char) (earlier : List Block) (b : Block) : List Diagnostic :=
  ((registry separator (accepted separator earlier)).conflict? (b.definition separator)).toList.map
    (Diagnostic.ofProblem · b.origin)

/-- What is reported as blocks are taken in after earlier ones: the misused statements of each, and
then its conflict. -/
def intakeReports (separator : Char) (earlier : List Block) : List Block → List Diagnostic
  | [] => []
  | b :: later => b.misuseReports separator ++ conflictReport separator earlier b ++
      intakeReports separator (earlier ++ [b]) later

/-- Everything that is reported during a resolution, in order: what is wrong with each block, and
then what is wrong with parents, attributes, links and menus of the accepted ones. -/
def reported (o : Options) (blocks : List Block) : List Diagnostic :=
  let r := registry o.separator (accepted o.separator blocks)
  let ancestry := Ancestry.ofRegistry r
  intakeReports o.separator [] blocks ++
    (ancestry.problems ++ r.effectiveProblems ancestry ++ r.linkProblems o ++
      (MenuCycle.ofGraph r r.graph).filterMap (MenuCycle.problem? r)).map fun (h, problem) =>
        Diagnostic.ofProblem problem ((r.get? h).bind Definition.origin)

theorem reported_eq (o : Options) (blocks : List Block) :
    reported o blocks = intakeReports o.separator [] blocks ++
      (registry o.separator (accepted o.separator blocks)).diagnose
        ((registry o.separator (accepted o.separator blocks)).problems o) :=
  rfl

private theorem foldl_add_log_entries (log : Log) (earlier blocks : List Block) :
    (blocks.foldl (Intake.add separator) (Intake.ofBlocks log separator earlier)).log.entries =
      (Intake.ofBlocks log separator earlier).log.entries ++
        intakeReports separator earlier blocks := by
  induction blocks generalizing earlier with
  | nil => simp [intakeReports]
  | cons b later ih =>
    rw [List.foldl_cons, ← ofBlocks_append_singleton, ih, ofBlocks_append_singleton,
      Intake.add_log_entries, ofBlocks_registry, intakeReports, conflictReport]
    simp only [List.append_assoc]

theorem ofBlocks_log_entries (log : Log) (separator : Char) (blocks : List Block) :
    (Intake.ofBlocks log separator blocks).log.entries =
      log.entries ++ intakeReports separator [] blocks :=
  foldl_add_log_entries log [] blocks

end Blocks

private theorem resolveAfter_diagnostics (log : Log) (o : Options) (blocks : List Block) :
    (resolveAfter log o blocks).diagnostics =
      Diagnostic.firsts [] (log.entries ++ Blocks.reported o blocks) := by
  change Diagnostic.firsts [] ((Intake.ofBlocks log o.separator blocks).log.entries ++
    (Intake.ofBlocks log o.separator blocks).registry.diagnose
      ((Intake.ofBlocks log o.separator blocks).registry.problems o)) = _
  rw [Blocks.ofBlocks_registry, Blocks.ofBlocks_log_entries, List.append_assoc, Blocks.reported_eq]

namespace SourceSet

def blocks (s : SourceSet) : List Block :=
  s.sources.flatMap fun source => (Document.ofText source.id source.text).blocks

/-- The faults in the texts, each with its place in its source. -/
def faultReports (s : SourceSet) : List Diagnostic :=
  s.sources.flatMap fun source => (Document.ofText source.id source.text).faults.map fun f =>
    Diagnostic.ofProblem (source.problem f.fault) (some ⟨source.id, f.span⟩)

/-- Everything that is reported during a load, in order. -/
def reported (o : Options) (s : SourceSet) : List Diagnostic :=
  s.faultReports ++ Blocks.reported o s.blocks

theorem load_eq (o : Options) (s : SourceSet) :
    s.load o = resolveAfter ⟨s.faultReports⟩ o s.blocks := by
  simp only [load, List.flatMap_map]
  rfl

theorem load_diagnostics (o : Options) (s : SourceSet) :
    (s.load o).diagnostics = Diagnostic.firsts [] (s.reported o) := by
  rw [load_eq, resolveAfter_diagnostics]
  rfl

end SourceSet

/-- What it means that finished diagnostics tell all that was reported. -/
structure Diagnostic.Tells (finished reported : List Diagnostic) : Prop where
  /-- Diagnostics with one key have everything else in common. -/
  determined : ∀ d ∈ reported, ∀ d' ∈ reported, d.key = d'.key →
    d.severity = d'.severity ∧ d.code = d'.code ∧ d.related = d'.related
  /-- The distinct diagnostics are finished, in the order of their first reports. -/
  distinct : finished = reported.eraseDups
  once : finished.Nodup
  complete : ∀ d, d ∈ finished ↔ d ∈ reported
  errors : (∃ d ∈ finished, d.severity = .error) ↔ ∃ d ∈ reported, d.severity = .error

private theorem Diagnostic.KeysDetermine.tells_firsts {reported : List Diagnostic}
    (h : KeysDetermine reported) : Tells (firsts [] reported) reported where
  determined d hd d' hd' hkey := by
    obtain rfl := h d hd d' hd' hkey
    exact ⟨rfl, rfl, rfl⟩
  distinct := by
    rw [h.firsts_eq_eraseDups, List.filter_eq_self.mpr (by simp)]
  once := (firsts_keys_nodup [] reported).of_map
  complete _ := h.mem_firsts_iff
  errors := exists_congr fun _ => and_congr_left fun _ => h.mem_firsts_iff

/-- After reports that are about no cycle, all that is reported is determined by its keys. -/
private theorem Blocks.reported_keysDetermine {log : Log}
    (hlog : ∀ d ∈ log.entries, ∃ subject, d.Plain subject) (o : Options) (blocks : List Block) :
    Diagnostic.KeysDetermine (log.entries ++ reported o blocks) := by
  have hnames : (registry o.separator (accepted o.separator blocks)).NamesDistinct :=
    (unclashing_accepted o.separator blocks).names
  have hkeys := hnames.keysDetermine o (plain_of_mem_ofBlocks_log hlog o.separator blocks)
  rwa [ofBlocks_log_entries, List.append_assoc, ← reported_eq] at hkeys

private theorem Source.plain_problem (s : Source) (f : Fault) : (s.problem f).Plain s.name := by
  unfold problem
  split <;> exact ⟨rfl, trivial, rfl⟩

private theorem SourceSet.plain_of_mem_faultReports (s : SourceSet) :
    ∀ d ∈ s.faultReports, ∃ subject, d.Plain subject := by
  intro d hd
  obtain ⟨source, _, hd⟩ := List.mem_flatMap.mp hd
  obtain ⟨f, _, rfl⟩ := List.mem_map.mp hd
  exact ⟨source.name, source.problem f.fault, _, source.plain_problem f.fault, rfl⟩

/-- No load and no resolution loses anything that was reported. -/
theorem finished_tells_reported (o : Options) :
    (∀ s : SourceSet, Diagnostic.Tells (s.load o).diagnostics (s.reported o)) ∧
      ∀ blocks, Diagnostic.Tells (resolve o blocks).diagnostics (Blocks.reported o blocks) := by
  refine ⟨fun s => ?_, fun blocks => ?_⟩
  · have hfaults : ∀ d ∈ (Log.mk s.faultReports).entries, ∃ subject, d.Plain subject :=
      s.plain_of_mem_faultReports
    rw [SourceSet.load_diagnostics]
    exact (Blocks.reported_keysDetermine hfaults o s.blocks).tells_firsts
  · have hempty : ∀ d ∈ Log.empty.entries, ∃ subject, d.Plain subject := by simp [Log.empty]
    rw [resolve, resolveAfter_diagnostics]
    exact (Blocks.reported_keysDetermine hempty o blocks).tells_firsts

end UiCatalog
