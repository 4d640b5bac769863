import UiCatalog.Proofs.Extension.Registry
import UiCatalog.Proofs.Graph.Extension
/-!
# Links of the other definitions

None of the other definitions has a slot with the new name, so each slot is linked as before, and
the graph of children has one more node that no other links to.
-/

namespace UiCatalog

private theorem Definition.mem_mentioned_of_slot {e : Definition} {s : Slot} {name : String}
    (hs : s ∈ e.slots) (hname : s.name? = some name) : name ∈ e.mentioned :=
  List.mem_append_right _ (List.mem_filterMap.mpr ⟨s, hs, hname⟩)

section

variable {r : Registry} {d : Definition}

private theorem Slot.report_extend {s : Slot} (hs : ∀ name, s.name? = some name → name ≠ d.name)
    (o : Options) (subject : String) : s.report (r.extend d) o subject = s.report r o subject := by
  cases s with
  | child index kind name =>
    have hmention : (Mention.child index ⟨kind, name⟩).name ≠ d.name := hs name rfl
    unfold report Links.childProblems
    dsimp only
    rw [Mention.problems_extend hmention, Mention.target?_extend hmention]
    cases htarget : (Mention.child index ⟨kind, name⟩).target? r with
    | none => rfl
    | some h =>
      have hne := Registry.ne_size_of_find? (Mention.target?_eq_some_iff.mp htarget).1
      rw [Option.bind_some, Registry.kind?_extend d hne, Option.bind_some]
  | typeLink a =>
    simp only [report, Links.attributeProblems]
    cases hlink : a.typeLink with
    | none => rfl
    | some name =>
      have hmention : (Mention.typeLink a name).name ≠ d.name := hs name hlink
      exact Mention.problems_extend hmention subject
  | queryType | expand | table | form | menu => exact Mention.problems_extend (hs _ rfl) subject

private theorem Links.ofTarget_extend {t : Target}
    (ht : ∀ s ∈ t.slots, ∀ name, s.name? = some name → name ≠ d.name) :
    ofTarget (r.extend d) t = ofTarget r t := by
  have hqueryTypes : ∀ q ∈ t.queryTypes.zipIdx, (Mention.queryType q.2 q.1).reference (r.extend d) =
      (Mention.queryType q.2 q.1).reference r := fun q hq =>
    Mention.reference_extend (ht (.queryType q.2 q.1) (by simp [Target.slots, hq]) _ rfl)
  have hexpand : ∀ raw ∈ t.expand, (Mention.expand raw).reference (r.extend d) =
      (Mention.expand raw).reference r := fun raw hraw =>
    Mention.reference_extend (ht (.expand raw) (by simp_all [Target.slots]) _ rfl)
  have htable : ∀ name ∈ t.table, (Mention.table name).name ≠ d.name := fun name hname =>
    ht (.table name) (by simp_all [Target.slots]) name rfl
  have hform : ∀ name ∈ t.form, (Mention.form name).name ≠ d.name := fun name hname =>
    ht (.form name) (by simp_all [Target.slots]) name rfl
  have hmenu : ∀ name ∈ t.menu, (Mention.menu name).name ≠ d.name := fun name hname =>
    ht (.menu name) (by simp_all [Target.slots]) name rfl
  unfold ofTarget
  rw [List.map_congr_left hqueryTypes, Mention.map_reference_extend htable,
    Mention.map_reference_extend hform, Mention.map_reference_extend hmenu]
  congr 1
  exact Option.map_congr fun raw hraw => by rw [hexpand raw hraw]

end

namespace Registry.Unknown

variable {r : Registry} {d e : Definition}

private theorem slot_name_ne (hd : r.Unknown d) (he : e ∈ r.definitions) :
    ∀ s ∈ e.slots, ∀ name, s.name? = some name → name ≠ d.name := by
  rintro s hs name hname rfl
  exact hd.unmentioned e he (Definition.mem_mentioned_of_slot hs hname)

private theorem linksOf (hd : r.Unknown d) (he : e ∈ r.definitions) :
    Links.ofDefinition (r.extend d) e = Links.ofDefinition r e := by
  have hname := hd.slot_name_ne he
  have hchildren : ∀ q ∈ e.children.zipIdx, (Mention.child q.2 q.1).reference (r.extend d) =
      (Mention.child q.2 q.1).reference r := by
    intro q hq
    have hslot : Slot.child q.2 q.1.kind q.1.name ∈ e.slots :=
      List.mem_append_left _ (List.mem_append_left _ (List.mem_map.mpr ⟨q, hq, rfl⟩))
    exact Mention.reference_extend (hname _ hslot _ rfl)
  have htarget : ∀ t ∈ e.target, Links.ofTarget (r.extend d) t = Links.ofTarget r t := fun t ht =>
    Links.ofTarget_extend fun s hs => hname s (by simp_all [Definition.slots])
  have htypeLinks : ∀ a ∈ e.attributes,
      (a.typeLink.map fun name => (Mention.typeLink a name).reference (r.extend d)) =
        a.typeLink.map fun name => (Mention.typeLink a name).reference r := fun a ha =>
    Mention.map_reference_extend fun name hlink =>
      hname (.typeLink a) (by simp [Definition.slots, ha]) name hlink
  unfold Links.ofDefinition
  rw [Option.map_congr htarget, List.map_congr_left htypeLinks]
  congr 1
  exact List.map_congr_left fun q hq => congrArg (ChildLink.mk q.1.kind) (hchildren q hq)

theorem linkProblemsOf (hd : r.Unknown d) (he : e ∈ r.definitions) (o : Options) :
    Links.problems (r.extend d) o e = Links.problems r o e := by
  rw [Links.problems_eq_flatMap, Links.problems_eq_flatMap]
  exact List.flatMap_congr fun s hs => Slot.report_extend (hd.slot_name_ne he s hs) o e.name

theorem links_get? (hd : r.Unknown d) {h : Handle} (hne : h ≠ r.size) :
    (r.extend d).links[h]? = r.links[h]? := by
  rw [Registry.links_get?, get?_extend d hne, Registry.links_get?]
  exact Option.map_congr fun e he => hd.linksOf (List.mem_of_getElem? he)

theorem graph_extends (hd : r.Unknown d) : r.graph.Extends (r.extend d).graph where
  valid := r.graph_valid
  valid' := (r.extend d).graph_valid
  size := by rw [graph_size, size_extend, graph_size]
  targets h hne := by
    rw [graph_size] at hne
    rw [graph_targets, get?_extend d hne, graph_targets]
    cases he : r.get? h with
    | none => rfl
    | some e => rw [Option.map_some, hd.linksOf (List.mem_of_getElem? he), Option.map_some]

end Registry.Unknown

end UiCatalog
