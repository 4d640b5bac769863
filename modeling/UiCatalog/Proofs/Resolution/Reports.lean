import UiCatalog.Proofs.Catalog.Problems
import UiCatalog.Proofs.Resolution.Intake
/-!
# What is reported

Each diagnostic of an intake is of a problem that is about no cycle and has the name of its block as
subject. Before the problems of a registry with distinct names, such diagnostics are determined by
their keys with these.
-/

namespace UiCatalog

/-- Whether a diagnostic is of a problem of a definition that is not about a cycle. -/
def Diagnostic.Plain (subject : String) (d : Diagnostic) : Prop :=
  ∃ p origin, p.Plain subject ∧ Diagnostic.ofProblem p origin = d

theorem Diagnostic.Plain.subject_eq {subject : String} {d : Diagnostic} (hd : d.Plain subject) :
    d.subject = subject := by
  obtain ⟨p, _, hp, rfl⟩ := hd
  exact hp.subject_eq

theorem Block.plain_of_mem_misuseReports {separator : Char} {b : Block} {d : Diagnostic}
    (hd : d ∈ b.misuseReports separator) : d.Plain b.name := by
  obtain ⟨misuse, _, rfl⟩ := List.mem_map.mp hd
  exact ⟨⟨b.name, .invalidStatement misuse.message⟩, b.origin, ⟨rfl, trivial, rfl⟩, rfl⟩

namespace Registry

variable {r : Registry}

theorem plain_of_conflict? {d : Definition} {p : Problem} (hp : r.conflict? d = some p) :
    p.Plain d.name := by
  unfold conflict? at hp
  split at hp
  · obtain rfl := Option.some.inj hp
    exact ⟨rfl, trivial, rfl⟩
  · split at hp
    · simp at hp
    · obtain ⟨_, _, rfl⟩ := Option.map_eq_some_iff.mp hp
      exact ⟨rfl, trivial, rfl⟩

theorem mem_diagnose_iff {problems : List (Handle × Problem)} {d : Diagnostic} :
    d ∈ r.diagnose problems ↔ ∃ h p, (h, p) ∈ problems ∧
      Diagnostic.ofProblem p ((r.get? h).bind Definition.origin) = d := by
  simp only [diagnose, List.mem_map, Prod.exists]

/-- Diagnostics that are about no cycle, and then those of a registry with distinct names, are
determined by their keys. -/
theorem NamesDistinct.keysDetermine (hr : r.NamesDistinct) (o : Options) {ds : List Diagnostic}
    (hds : ∀ d ∈ ds, ∃ subject, d.Plain subject) :
    Diagnostic.KeysDetermine (ds ++ r.diagnose (r.problems o)) := by
  have hproblem : ∀ d ∈ ds ++ r.diagnose (r.problems o), ∃ p origin,
      Diagnostic.ofProblem p origin = d ∧ p.WellPut ∧
        (p.tellsCycle = true → ∃ h, (h, p) ∈ r.problems o) := by
    intro d hd
    rcases List.mem_append.mp hd with hd | hd
    · obtain ⟨_, p, origin, hp, rfl⟩ := hds d hd
      exact ⟨p, origin, rfl, hp.wellPut, by simp [hp.noCycle]⟩
    · obtain ⟨h, p, hp, rfl⟩ := mem_diagnose_iff.mp hd
      exact ⟨p, _, rfl, wellPut_of_mem_problems hp, fun _ => ⟨h, hp⟩⟩
  intro d hd d' hd' hkey
  obtain ⟨p, origin, rfl, hput, hp⟩ := hproblem d hd
  obtain ⟨q, origin', rfl, hput', hq⟩ := hproblem d' hd'
  refine Diagnostic.ofProblem_eq_of_key hput hput' (fun hcycle => ?_) hkey
  have hcategory : p.category = q.category := congrArg Diagnostic.Key.category hkey
  have hcycle' : q.tellsCycle = true := by
    rw [Problem.tellsCycle_iff, ← hcategory]
    exact Problem.tellsCycle_iff.mp hcycle
  obtain ⟨h, hp⟩ := hp hcycle
  obtain ⟨h', hq⟩ := hq hcycle'
  exact hr.eq_of_tellsCycle hp hq hcycle hcategory (congrArg Diagnostic.Key.subject hkey)

end Registry

end UiCatalog
