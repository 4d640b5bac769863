import UiCatalog.Proofs.Catalog.ByName
import UiCatalog.Proofs.Catalog.Contents
import UiCatalog.Proofs.Graph.Renumbering
import UiCatalog.Proofs.Renumbering.Registry
/-!
# Links in renumbered registries

A mention is looked up by name, so it resolves to the same definition under whatever handle, and
whether it resolves does not depend on the numbers.
-/

namespace UiCatalog.Renumbers

variable {σ : Equiv.Perm Handle} {r r' : Registry}

private theorem target? (hσ : Renumbers σ r r') (m : Mention) :
    m.target? r' = (m.target? r).map σ := by
  rw [Mention.target?, Mention.target?, hσ.find?]
  cases r.find? m.name with
  | none => rfl
  | some h =>
    simp only [Option.map_some, Option.filter_some, hσ.kind?]
    split <;> rfl

private theorem mention_problems (hσ : Renumbers σ r r') (m : Mention) (subject : String) :
    m.problems r' subject = m.problems r subject := by
  have hkind : (r'.find? m.name).bind r'.kind? = (r.find? m.name).bind r.kind? := by
    rw [hσ.find?]
    cases r.find? m.name with
    | none => rfl
    | some h => exact hσ.kind? h
  rw [Mention.problems, Mention.problems, hkind]

private theorem childProblems (hσ : Renumbers σ r r') (o : Options) (subject : String) (index : Nat)
    (c : Child) :
    Links.childProblems r' o subject index c = Links.childProblems r o subject index c := by
  have hkind (m : Mention) : (m.target? r').bind r'.kind? = (m.target? r).bind r.kind? := by
    rw [hσ.target?]
    cases m.target? r with
    | none => rfl
    | some h => exact hσ.kind? h
  simp only [Links.childProblems, hσ.mention_problems, hkind]

private theorem attributeProblems (hσ : Renumbers σ r r') (subject : String) (a : Attribute) :
    Links.attributeProblems r' subject a = Links.attributeProblems r subject a := by
  unfold Links.attributeProblems
  split
  · exact hσ.mention_problems _ _
  · rfl

theorem linkProblems (hσ : Renumbers σ r r') (o : Options) (d : Definition) :
    Links.problems r' o d = Links.problems r o d := by
  have hattribute : Links.attributeProblems r' d.name = Links.attributeProblems r d.name :=
    funext (hσ.attributeProblems d.name)
  simp only [Links.problems, hσ.childProblems, hσ.mention_problems, hattribute]

theorem named_target (hσ : Renumbers σ r r') (target : Option Handle) :
    (target.map σ).map r'.name = target.map r.name := by
  rw [Option.map_map]
  congr 1
  funext h
  exact hσ.name h

private theorem reference_named (hσ : Renumbers σ r r') (m : Mention) :
    (m.reference r').named r' = (m.reference r).named r := by
  rw [Reference.named, Mention.reference, hσ.target?, hσ.named_target]
  rfl

private theorem ofTarget_named (hσ : Renumbers σ r r') (t : Target) :
    (Links.ofTarget r' t).named r' = (Links.ofTarget r t).named r := by
  simp only [Links.ofTarget, TargetLinks.named, List.map_map, Option.map_map, Function.comp_def,
    hσ.reference_named, ExpandLink.named]

theorem children_named (hσ : Renumbers σ r r') (d : Definition) :
    (Links.ofDefinition r' d).children.map (ChildLink.named r') =
      (Links.ofDefinition r d).children.map (ChildLink.named r) := by
  simp only [Links.ofDefinition, ChildLink.named, List.map_map, Function.comp_def,
    hσ.reference_named]

theorem target_named (hσ : Renumbers σ r r') (d : Definition) :
    (Links.ofDefinition r' d).target.map (TargetLinks.named r') =
      (Links.ofDefinition r d).target.map (TargetLinks.named r) := by
  simp only [Links.ofDefinition, Option.map_map, Function.comp_def, hσ.ofTarget_named]

theorem typeLink_named (hσ : Renumbers σ r r') (d : Definition) (index : Nat) :
    ((Links.ofDefinition r' d).typeLinks[index]?).join.map (Reference.named r') =
      ((Links.ofDefinition r d).typeLinks[index]?).join.map (Reference.named r) := by
  simp only [Links.ofDefinition, List.getElem?_map]
  cases d.attributes[index]? with
  | none => rfl
  | some a =>
    simp only [Option.map_some, Option.join_some, Option.map_map, Function.comp_def,
      hσ.reference_named]

private theorem childHandles (hσ : Renumbers σ r r') (d : Definition) :
    (Links.ofDefinition r' d).childHandles = (Links.ofDefinition r d).childHandles.map σ := by
  simp only [Links.childHandles, Links.ofDefinition, List.filterMap_map, List.map_filterMap,
    Function.comp_def, Mention.reference, hσ.target?]

theorem graph (hσ : Renumbers σ r r') : Graph.Renumbers σ r.graph r'.graph := by
  intro h
  rw [Registry.graph_targets, Registry.graph_targets, hσ.get?]
  cases r.get? h with
  | none => rfl
  | some d => exact hσ.childHandles d

end UiCatalog.Renumbers
