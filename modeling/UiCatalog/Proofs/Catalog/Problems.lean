import UiCatalog.Proofs.Catalog.Contents
import UiCatalog.Proofs.Diagnostic.Key
import UiCatalog.Proofs.Diagnostic.Log
import UiCatalog.Proofs.Navigation.Cycles
/-!
# Problems of a registry

Every problem has the name of its definition as subject. On one definition at most one cycle of
parents and one cycle of children is reported, so the diagnostics of a registry with distinct names
are determined by their keys.
-/

namespace UiCatalog

private theorem Mention.quote_notMem_expected (m : Mention) : '\'' ∉ m.expected.toList := by
  obtain ⟨_, _, accepts⟩ := m
  rw [expected]
  induction accepts with
  | nil => simp
  | cons k ks ih =>
    cases ks with
    | nil => simpa using k.quote_notMem_keyword
    | cons k' ks => simpa [k.quote_notMem_keyword] using ih

namespace Problem

/-- What holds of every problem of a definition that is not about a cycle. -/
structure Plain (subject : String) (p : Problem) : Prop where
  subject_eq : p.subject = subject
  wellPut : p.WellPut
  noCycle : p.tellsCycle = false

end Problem

private theorem Mention.plain_of_mem_problems {m : Mention} {r : Registry} {subject : String}
    {p : Problem} (hp : p ∈ m.problems r subject) : p.Plain subject := by
  unfold problems at hp
  split at hp
  · obtain rfl := List.mem_singleton.mp hp
    exact ⟨rfl, trivial, rfl⟩
  · split at hp
    · simp at hp
    · obtain rfl := List.mem_singleton.mp hp
      exact ⟨rfl, m.quote_notMem_expected, rfl⟩

namespace Links

private theorem plain_of_mem_childProblems {r : Registry} {o : Options} {subject : String}
    {index : Nat} {c : Child} {p : Problem} (hp : p ∈ childProblems r o subject index c) :
    p.Plain subject := by
  rcases List.mem_append.mp hp with hp | hp
  · exact Mention.plain_of_mem_problems hp
  · split at hp
    · split at hp
      · obtain rfl := List.mem_singleton.mp hp
        exact ⟨rfl, by simp [Problem.WellPut, Mention.child, toString], rfl⟩
      · simp at hp
    · simp at hp

private theorem plain_of_mem_attributeProblems {r : Registry} {subject : String} {a : Attribute}
    {p : Problem} (hp : p ∈ attributeProblems r subject a) : p.Plain subject := by
  unfold attributeProblems at hp
  split at hp
  · exact Mention.plain_of_mem_problems hp
  · split at hp
    · obtain rfl := List.mem_singleton.mp hp
      exact ⟨rfl, trivial, rfl⟩
    · simp at hp

private theorem plain_of_mem_problems {r : Registry} {o : Options} {d : Definition} {p : Problem}
    (hp : p ∈ problems r o d) : p.Plain d.name := by
  rcases List.mem_append.mp hp with hp | hp
  · rcases List.mem_append.mp hp with hp | hp
    · obtain ⟨_, _, hp⟩ := List.mem_flatMap.mp hp
      exact plain_of_mem_childProblems hp
    · obtain ⟨_, _, hp⟩ := List.mem_flatMap.mp hp
      exact Mention.plain_of_mem_problems hp
  · obtain ⟨_, _, hp⟩ := List.mem_flatMap.mp hp
    exact plain_of_mem_attributeProblems hp

end Links

private theorem Lineage.plain_of_mem_parentProblems {r : Registry} {subject parent : String}
    {p : Problem} (hp : p ∈ parentProblems r subject parent) : p.Plain subject := by
  unfold parentProblems at hp
  split at hp
  · obtain rfl := List.mem_singleton.mp hp
    exact ⟨rfl, trivial, rfl⟩
  · simp at hp
  · obtain rfl := List.mem_singleton.mp hp
    exact ⟨rfl, Kind.type.quote_notMem_keyword, rfl⟩

private theorem Lineage.concerns_of_mem_cycleProblems {r : Registry} {h : Handle} {subject : String}
    {c : List Handle} {p : Problem} (hp : p ∈ cycleProblems r h subject c) :
    p.concernsParentCycle := by
  unfold cycleProblems at hp
  dsimp only at hp
  split at hp
  · split at hp
    · obtain rfl := List.mem_singleton.mp hp
      rfl
    · simp at hp
  · obtain rfl := List.mem_singleton.mp hp
    rfl

private theorem Effective.plain_of_mem_ofChain {r : Registry} {h : Handle} {chain : List Handle}
    {p : Problem} (hchain : chain.head? = some h) (hp : p ∈ (ofChain r chain).2) :
    p.Plain (r.name h) := by
  obtain ⟨⟨a, first⟩, hmem, rfl⟩ := List.mem_map.mp hp
  have howner : h = a.owner := by simpa [hchain] using (List.mem_filter.mp hmem).2
  exact ⟨congrArg r.name howner.symm, trivial, rfl⟩

namespace Registry

variable {r : Registry}

private theorem mem_ancestry_problems_cases {h : Handle} {p : Problem}
    (hp : (h, p) ∈ (Ancestry.ofRegistry r).problems) :
    p.Plain (r.name h) ∨ (h, p) ∈ (Ancestry.ofRegistry r).cycleReports := by
  by_cases hcycle : p.concernsParentCycle
  · exact Or.inr (List.mem_filter.mpr ⟨hp, hcycle⟩)
  · refine Or.inl ?_
    obtain ⟨l, hl, hp⟩ := Ancestry.mem_problems_iff.mp hp
    rw [Ancestry.lineage?_ofRegistry] at hl
    obtain ⟨d, hd, hl⟩ := Option.bind_eq_some_iff.mp hl
    split at hl
    · obtain rfl := Option.some.inj hl
      rw [name_of_get? hd]
      have hparent : p ∈ (d.parent.map (Lineage.parentProblems r d.name)).getD [] := by
        unfold Lineage.ofType at hp
        dsimp only at hp
        split at hp
        · exact hp
        · rcases List.mem_append.mp hp with hp | hp
          · exact hp
          · exact absurd (Lineage.concerns_of_mem_cycleProblems hp) hcycle
      cases hparentName : d.parent with
      | none => simp [hparentName] at hparent
      | some parent =>
        rw [hparentName, Option.map_some, Option.getD_some] at hparent
        exact Lineage.plain_of_mem_parentProblems hparent
    · simp at hl

theorem head?_chain (r : Registry) {h : Handle} {d : Definition} (hd : r.get? h = some d) :
    (((Ancestry.ofRegistry r).chain? h).getD [h]).head? = some h := by
  cases hchain : (Ancestry.ofRegistry r).chain? h with
  | none => rfl
  | some chain =>
    obtain ⟨_, _, rfl⟩ := Ancestry.chain?_eq_some_iff.mp hchain
    obtain ⟨path, hpath⟩ := ascent_path_eq_cons (mem_handles_of_get? hd)
    rw [Option.getD_some, hpath, List.head?_cons]

private theorem mem_problems_cases {o : Options} {h : Handle} {p : Problem}
    (hp : (h, p) ∈ r.problems o) :
    p.Plain (r.name h) ∨ (h, p) ∈ (Ancestry.ofRegistry r).cycleReports ∨
      ∃ c ∈ MenuCycle.ofGraph r r.graph, c.problem? r = some (h, p) := by
  rcases mem_problems_iff.mp hp with hp | hp | hp | hp
  · exact (mem_ancestry_problems_cases hp).imp_right Or.inl
  · obtain ⟨d, hd, _, hp⟩ := mem_effectiveProblems_iff.mp hp
    exact Or.inl (Effective.plain_of_mem_ofChain (head?_chain r hd) hp)
  · obtain ⟨d, hd, hp⟩ := mem_linkProblems_iff.mp hp
    rw [name_of_get? hd]
    exact Or.inl (Links.plain_of_mem_problems hp)
  · exact Or.inr (Or.inr hp)

private theorem report_of_mem_cycleReports {h : Handle} {p : Problem}
    (hp : (h, p) ∈ (Ancestry.ofRegistry r).cycleReports) :
    h < r.size ∧ p.subject = r.name h ∧ p.category = .cyclicInheritance := by
  obtain ⟨d, hd, _, hp⟩ := Ancestry.mem_cycleReports_iff.mp hp
  rw [name_of_get? hd]
  refine ⟨get?_eq_some_lt hd, ?_⟩
  rw [Lineage.ofType_problems_filter] at hp
  split at hp
  · simp at hp
  · split at hp
    · split at hp
      · obtain rfl := List.mem_singleton.mp hp
        exact ⟨rfl, rfl⟩
      · simp at hp
    · obtain rfl := List.mem_singleton.mp hp
      exact ⟨rfl, rfl⟩

theorem report_of_menuCycle_problem? {h : Handle} {p : Problem} {c : MenuCycle}
    (hc : c ∈ MenuCycle.ofGraph r r.graph) (hp : c.problem? r = some (h, p)) :
    h < r.size ∧ p.subject = r.name h ∧ p.category = .cyclicMenuGraph := by
  obtain ⟨members, hmembers, rfl⟩ := List.mem_map.mp hc
  obtain ⟨start, _, _, hstart, _, hproblem⟩ :=
    MenuCycle.problem?_ofComponent (r := r) r.graph_valid hmembers
  obtain ⟨rfl, rfl⟩ := Prod.mk.inj (Option.some.inj (hproblem.symm.trans hp))
  have hcomp := ((Graph.mem_cyclicComponents_iff r.graph_valid).mp hmembers).1
  exact ⟨r.graph_size ▸ Graph.mem_component_lt hcomp hstart, rfl, rfl⟩

private theorem eq_of_mem_cycleReports {h : Handle} {p q : Problem}
    (hp : (h, p) ∈ (Ancestry.ofRegistry r).cycleReports)
    (hq : (h, q) ∈ (Ancestry.ofRegistry r).cycleReports) : p = q := by
  obtain ⟨d, hd, _, hp⟩ := Ancestry.mem_cycleReports_iff.mp hp
  obtain ⟨d', hd', _, hq⟩ := Ancestry.mem_cycleReports_iff.mp hq
  obtain rfl : d = d' := Option.some.inj (hd.symm.trans hd')
  rw [Lineage.ofType_problems_filter] at hp hq
  split at hp
  · simp at hp
  · split at hp
    · split at hp
      · simp_all
      · simp at hp
    · simp_all

private theorem eq_of_menuCycle_problem? {h : Handle} {p q : Problem} {c c' : MenuCycle}
    (hc : c ∈ MenuCycle.ofGraph r r.graph) (hc' : c' ∈ MenuCycle.ofGraph r r.graph)
    (hp : c.problem? r = some (h, p)) (hq : c'.problem? r = some (h, q)) : p = q := by
  obtain ⟨members, hmembers, rfl⟩ := List.mem_map.mp hc
  obtain ⟨members', hmembers', rfl⟩ := List.mem_map.mp hc'
  obtain ⟨start, _, _, hstart, _, hproblem⟩ :=
    MenuCycle.problem?_ofComponent (r := r) r.graph_valid hmembers
  obtain ⟨start', _, _, hstart', _, hproblem'⟩ :=
    MenuCycle.problem?_ofComponent (r := r) r.graph_valid hmembers'
  obtain rfl : start = h := (Prod.mk.inj (Option.some.inj (hproblem.symm.trans hp))).1
  obtain rfl : start' = start := (Prod.mk.inj (Option.some.inj (hproblem'.symm.trans hq))).1
  obtain rfl : members = members' := Graph.component_eq_of_mem r.graph_valid
    ((Graph.mem_cyclicComponents_iff r.graph_valid).mp hmembers).1
    ((Graph.mem_cyclicComponents_iff r.graph_valid).mp hmembers').1 hstart hstart'
  exact (Prod.mk.inj (Option.some.inj (hp.symm.trans hq))).2

theorem subject_of_mem_problems {o : Options} {h : Handle} {p : Problem}
    (hp : (h, p) ∈ r.problems o) : p.subject = r.name h := by
  rcases mem_problems_cases hp with hp | hp | ⟨c, hc, hp⟩
  · exact hp.subject_eq
  · exact (report_of_mem_cycleReports hp).2.1
  · exact (report_of_menuCycle_problem? hc hp).2.1

theorem wellPut_of_mem_problems {o : Options} {h : Handle} {p : Problem}
    (hp : (h, p) ∈ r.problems o) : p.WellPut := by
  rcases mem_problems_cases hp with hp | hp | ⟨c, hc, hp⟩
  · exact hp.wellPut
  · exact .of_tellsCycle (Problem.tellsCycle_iff.mpr (Or.inl (report_of_mem_cycleReports hp).2.2))
  · exact .of_tellsCycle
      (Problem.tellsCycle_iff.mpr (Or.inr (report_of_menuCycle_problem? hc hp).2.2))

/-- A problem that tells a cycle is the report of a cycle of parents or of children. -/
private theorem report_of_tellsCycle {o : Options} {h : Handle} {p : Problem}
    (hp : (h, p) ∈ r.problems o) (hcycle : p.tellsCycle = true) :
    h < r.size ∧ ((p.category = .cyclicInheritance ∧
        (h, p) ∈ (Ancestry.ofRegistry r).cycleReports) ∨
      (p.category = .cyclicMenuGraph ∧
        ∃ c ∈ MenuCycle.ofGraph r r.graph, c.problem? r = some (h, p))) := by
  rcases mem_problems_cases hp with hp | hp | ⟨c, hc, hp⟩
  · rw [hp.noCycle] at hcycle
    simp at hcycle
  · obtain ⟨hlt, _, hcategory⟩ := report_of_mem_cycleReports hp
    exact ⟨hlt, Or.inl ⟨hcategory, hp⟩⟩
  · obtain ⟨hlt, _, hcategory⟩ := report_of_menuCycle_problem? hc hp
    exact ⟨hlt, Or.inr ⟨hcategory, c, hc, hp⟩⟩

/-- With distinct names it is clear whose cycle a problem tells. -/
theorem NamesDistinct.eq_of_tellsCycle (hr : r.NamesDistinct) {o : Options} {h h' : Handle}
    {p q : Problem} (hp : (h, p) ∈ r.problems o) (hq : (h', q) ∈ r.problems o)
    (hcycle : p.tellsCycle = true) (hcategory : p.category = q.category)
    (hsubject : p.subject = q.subject) : p = q := by
  have hcycle' : q.tellsCycle = true := by
    rw [Problem.tellsCycle_iff, ← hcategory]
    exact Problem.tellsCycle_iff.mp hcycle
  obtain ⟨hlt, hreport⟩ := report_of_tellsCycle hp hcycle
  obtain ⟨hlt', hreport'⟩ := report_of_tellsCycle hq hcycle'
  obtain rfl : h = h' := by
    have hd := get?_eq_getElem hlt
    have hd' := get?_eq_getElem hlt'
    refine hr.eq_of_name hd hd' ?_
    rw [← name_of_get? hd, ← name_of_get? hd', ← subject_of_mem_problems hp,
      ← subject_of_mem_problems hq, hsubject]
  rcases hreport with ⟨hc, hp⟩ | ⟨hc, c, hmem, hp⟩ <;>
    rcases hreport' with ⟨hc', hq⟩ | ⟨hc', c', hmem', hq⟩
  · exact eq_of_mem_cycleReports hp hq
  · simp [← hcategory, hc] at hc'
  · simp [← hcategory, hc] at hc'
  · exact eq_of_menuCycle_problem? hmem hmem' hp hq

end Registry

end UiCatalog
