import UiCatalog.Proofs.Renumbering.Ancestry
import UiCatalog.Proofs.Renumbering.Navigation
/-!
# Entities of renumbered registries

Told by names, the entity of a definition is the same under every numbering.
-/

namespace UiCatalog

private theorem Registry.entityOf_named_eq (r : Registry) (h : Handle) (d : Definition) :
    (r.entityOf h d).named r =
      { handle := r.name h
        kind := d.kind
        name := d.name
        uuid := d.uuid
        icon := d.icon
        parent := (r.entityOf h d).parent.map (Reference.named r)
        ancestors := (r.entityOf h d).ancestors.map (List.map r.name)
        properties := (r.entityOf h d).properties
        attributes := (r.entityOf h d).attributes.map (EntityAttribute.named r)
        children := (r.entityOf h d).children.map (ChildLink.named r)
        target := (r.entityOf h d).target.map (TargetLinks.named r)
        cyclic := r.navigation.isCyclic h
        origin := d.origin } :=
  rfl

namespace Renumbers

variable {σ : Equiv.Perm Handle} {r r' : Registry}

theorem effectiveOf (hσ : Renumbers σ r r') (h : Handle) :
    r'.effectiveOf (σ h) =
      ({ (r.effectiveOf h).1 with
          attributes := (r.effectiveOf h).1.attributes.map (Declared.renumber σ) },
        (r.effectiveOf h).2) := by
  have hchain : ((Ancestry.ofRegistry r').chain? (σ h)).getD [σ h] =
      (((Ancestry.ofRegistry r).chain? h).getD [h]).map σ := by
    rw [hσ.chain?]
    cases (Ancestry.ofRegistry r).chain? h <;> rfl
  rw [Registry.effectiveOf, hchain, hσ.ofChain]
  rfl

private theorem attribute_named (hσ : Renumbers σ r r') (a : Declared) :
    (Entity.attributeOf r'.links (a.renumber σ)).named r' =
      (Entity.attributeOf r.links a).named r := by
  have hlink : ((r'.links[σ a.owner]?).bind fun l => l.typeLinks[a.index]?).join.map
        (Reference.named r') =
      ((r.links[a.owner]?).bind fun l => l.typeLinks[a.index]?).join.map (Reference.named r) := by
    rw [Registry.links_get?, Registry.links_get?, hσ.get?]
    cases r.get? a.owner with
    | none => rfl
    | some d => exact hσ.typeLink_named d a.index
  simp only [Entity.attributeOf, EntityAttribute.named, Declared.renumber, hσ.name, hlink]

private theorem entityOf_parent (hσ : Renumbers σ r r') (h : Handle) (d : Definition) :
    (r'.entityOf (σ h) d).parent.map (Reference.named r') =
      (r.entityOf h d).parent.map (Reference.named r) := by
  change ((Ancestry.ofRegistry r').parent? (σ h)).map _ = ((Ancestry.ofRegistry r).parent? h).map _
  rw [hσ.parent?, Option.map_map]
  congr 1
  funext p
  simp [Reference.named, hσ.named_target]

private theorem entityOf_ancestors (hσ : Renumbers σ r r') (h : Handle) (d : Definition) :
    (r'.entityOf (σ h) d).ancestors.map (List.map r'.name) =
      (r.entityOf h d).ancestors.map (List.map r.name) := by
  change ((Ancestry.ofRegistry r').chain? (σ h)).map _ = ((Ancestry.ofRegistry r).chain? h).map _
  rw [hσ.chain?, Option.map_map]
  congr 1
  funext chain
  exact hσ.map_name chain

private theorem entityOf_properties (hσ : Renumbers σ r r') (h : Handle) (d : Definition) :
    (r'.entityOf (σ h) d).properties = (r.entityOf h d).properties := by
  simp only [Registry.entityOf, Entity.ofDefinition, hσ.effectiveOf, hσ.chain?]
  by_cases hkind : d.kind = .type
  · simp only [if_pos hkind, Option.map_map, Function.comp_def]
  · simp only [if_neg hkind]

private theorem entityOf_attributes (hσ : Renumbers σ r r') (h : Handle) (d : Definition) :
    (r'.entityOf (σ h) d).attributes.map (EntityAttribute.named r') =
      (r.entityOf h d).attributes.map (EntityAttribute.named r) := by
  simp only [Registry.entityOf, Entity.ofDefinition, hσ.effectiveOf]
  by_cases hkind : d.kind = .type
  · simp only [if_pos hkind, Option.map_some, Option.getD_some, List.map_map]
    exact List.map_congr_left fun a _ => hσ.attribute_named a
  · simp only [if_neg hkind, Option.map_none, Option.getD_none, List.map_nil]

private theorem entityOf_children (hσ : Renumbers σ r r') {h : Handle} {d : Definition}
    (hd : r.get? h = some d) :
    (r'.entityOf (σ h) d).children.map (ChildLink.named r') =
      (r.entityOf h d).children.map (ChildLink.named r) := by
  simp only [Registry.entityOf, Entity.ofDefinition, Registry.links_get?, hσ.get?, hd,
    Option.map_some, Option.getD_some, hσ.children_named]

private theorem entityOf_target (hσ : Renumbers σ r r') {h : Handle} {d : Definition}
    (hd : r.get? h = some d) :
    (r'.entityOf (σ h) d).target.map (TargetLinks.named r') =
      (r.entityOf h d).target.map (TargetLinks.named r) := by
  simp only [Registry.entityOf, Entity.ofDefinition, Registry.links_get?, hσ.get?, hd,
    Option.map_some, Option.bind_some, hσ.target_named]

private theorem entityOf_named (hσ : Renumbers σ r r') {h : Handle} {d : Definition}
    (hd : r.get? h = some d) :
    (r'.entityOf (σ h) d).named r' = (r.entityOf h d).named r := by
  rw [r'.entityOf_named_eq, r.entityOf_named_eq, hσ.name, hσ.isCyclic, hσ.entityOf_parent,
    hσ.entityOf_ancestors, hσ.entityOf_properties, hσ.entityOf_attributes, hσ.entityOf_children hd,
    hσ.entityOf_target hd]

end Renumbers

namespace Catalog

variable {σ : Equiv.Perm Handle} {r r' : Registry}

private theorem named?_ofRegistry (o : Options) (r : Registry) (name : String) :
    (ofRegistry o r).1.named? name =
      (r.find? name).bind fun h => (r.get? h).map fun d => (r.entityOf h d).named r := by
  rw [named?, registry_ofRegistry, get?_ofRegistry, Option.map_bind]
  simp only [Function.comp_def, Option.map_map]

theorem named?_renumbers (hσ : Renumbers σ r r') (o : Options) (name : String) :
    (ofRegistry o r').1.named? name = (ofRegistry o r).1.named? name := by
  rw [named?_ofRegistry, named?_ofRegistry, hσ.find?]
  cases hf : r.find? name with
  | none => simp only [Option.map_none, Option.bind_none]
  | some h =>
    obtain ⟨d, hd, _⟩ := Registry.get?_of_find? hf
    have hd' : r'.get? (σ h) = some d := (hσ.get? h).trans hd
    rw [Option.map_some, Option.bind_some, Option.bind_some, hd, hd', Option.map_some,
      Option.map_some, hσ.entityOf_named hd]

theorem namedTree?_renumbers (hσ : Renumbers σ r r') (o : Options) (name : String) :
    (ofRegistry o r').1.namedTree? name = (ofRegistry o r).1.namedTree? name := by
  rw [namedTree?, namedTree?, tree?_ofRegistry, tree?_ofRegistry, registry_ofRegistry,
    registry_ofRegistry, hσ.find?]
  cases r.find? name with
  | none => simp only [Option.map_none, Option.bind_none]
  | some h => exact hσ.tree? h

private theorem rootNames_ofRegistry (o : Options) (r : Registry) :
    (ofRegistry o r).1.rootNames = r.navigation.roots.map r.name := by
  have hroots : ∀ h ∈ r.navigation.roots, ∃ d, r.get? h = some d := by
    intro h hh
    obtain ⟨⟨k, hk, _⟩, _⟩ := Navigation.mem_roots_iff.mp hh
    obtain ⟨d, hd, _⟩ := Registry.kind?_eq_some_iff.mp hk
    exact ⟨d, hd⟩
  rw [rootNames, Catalog.roots, navigation_ofRegistry, entitiesAt]
  generalize r.navigation.roots = roots at hroots
  induction roots with
  | nil => rfl
  | cons h hs ih =>
    obtain ⟨d, hd⟩ := hroots h List.mem_cons_self
    have hentity : (ofRegistry o r).1.entities[h]? = some (r.entityOf h d) := by
      rw [Registry.entities_get?, hd]
      rfl
    rw [List.filterMap_cons_some hentity, List.map_cons, List.map_cons,
      ih fun h' hh' => hroots h' (List.mem_cons_of_mem h hh'), Registry.name_of_get? hd]
    rfl

theorem rootNames_renumbers (hσ : Renumbers σ r r') (o : Options) :
    (ofRegistry o r').1.rootNames.Perm (ofRegistry o r).1.rootNames := by
  have hperm : r'.navigation.roots.Perm (r.navigation.roots.map σ) := by
    refine (List.perm_ext_iff_of_nodup (Navigation.roots_nodup _ _ _)
      ((Navigation.roots_nodup _ _ _).map σ.injective)).mpr fun h => ?_
    obtain ⟨k, rfl⟩ := σ.surjective h
    have hedge (u : Handle) : r'.graph.Edge (σ u) (σ k) ↔ r.graph.Edge u k :=
      ⟨fun h => by simpa using hσ.graph.symm.edge h, hσ.graph.edge⟩
    have hcyclic : ∀ h, (Navigation.ofCycles r' r'.graph (MenuCycle.ofGraph r' r'.graph)).isCyclic
        (σ h) = (Navigation.ofCycles r r.graph (MenuCycle.ofGraph r r.graph)).isCyclic h :=
      hσ.isCyclic
    rw [List.mem_map_of_injective σ.injective]
    rw [Navigation.mem_roots_iff, Navigation.mem_roots_iff, hσ.kind?, hcyclic, σ.surjective.forall]
    simp only [hedge, hcyclic]
  rw [rootNames_ofRegistry, rootNames_ofRegistry, ← hσ.map_name]
  exact hperm.map r'.name

end Catalog

end UiCatalog
