import UiCatalog.Proofs.Ancestry.Line
import UiCatalog.Proofs.Effective.Attributes
import UiCatalog.Proofs.Extension.Catalog
import UiCatalog.Proofs.Resolution.Cascade
/-!
# Effective attributes of a catalog

A type has the first attribute of each name that is declared along its ancestors, from the root
down, each with its owner and with the type link that was linked for the owner. An attribute of a
type that does not stand is reported once, on that type.
-/

namespace UiCatalog

open UiCatalog.Effective

/-- A type and its ancestors, closest first, or the type alone. -/
def Entity.lineage (e : Entity) : List Handle :=
  e.ancestors.getD [e.handle]

def Definition.declarations (d : Definition) (owner : Handle) : List Declared :=
  d.attributes.mapIdx fun index content => ⟨owner, index, content⟩

/-- The attributes of the definitions of a lineage, those of its far end first. -/
def Registry.declarations (r : Registry) (lineage : List Handle) : List Declared :=
  lineage.reverse.flatMap fun h => ((r.get? h).map (·.declarations h)).getD []

/-- What a declared attribute is in an entity. -/
structure EntityAttribute.Shows (r : Registry) (a : Declared) (shown : EntityAttribute) : Prop where
  owner : shown.owner = a.owner
  name : shown.name = a.content.name
  type : shown.type = a.content.type
  sqlTable : shown.sqlTable = a.content.sqlTable
  sqlColumn : shown.sqlColumn = a.content.sqlColumn
  /-- The type link is that of the declaration, as it was linked for its owner. -/
  typeLink : ∃ d, r.get? a.owner = some d ∧ d.attributes[a.index]? = some a.content ∧
    (Links.ofDefinition r d).typeLinks[a.index]? = some shown.typeLink

/-- The problems of attributes that are filed under a definition. -/
def Registry.attributeProblems (r : Registry) (h : Handle) : List Problem :=
  ((r.effectiveProblems (Ancestry.ofRegistry r)).filter (·.1 = h)).map Prod.snd

/-- What attributes the types of a catalog have. -/
structure Catalog.AccumulatesAttributes (c : Catalog) : Prop where
  /-- Entities are numbered like the definitions that they come from. -/
  entities : c.entities.map (fun e => (e.handle, e.kind, e.name)) =
    c.registry.definitions.zipIdx.map fun (d, h) => (h, d.kind, d.name)
  distinct : ∀ e ∈ c.entities, e.kind = .type → (e.attributes.map EntityAttribute.name).Nodup
  /-- Of the attributes that are declared along the ancestors the first of each name stands. -/
  first : ∀ e ∈ c.entities, e.kind = .type →
    List.Forall₂ (EntityAttribute.Shows c.registry)
      (firstOfEachName (c.registry.declarations e.lineage)) e.attributes
  inherited : ∀ e ∈ c.entities, e.kind = .type → ∀ p ∈ c.entities,
    e.parent.bind Reference.target = some p.handle → p.ancestors ≠ none →
      p.attributes <+: e.attributes
  /-- Each attribute that a type declares itself and that does not stand is reported once, in the
  order of declaration, and with the owner of the one that stands. -/
  reports : ∀ e ∈ c.entities, e.kind = .type → ∀ d, c.registry.get? e.handle = some d →
    List.Forall₂
      (SurplusProblem c.registry (firstOfEachName (c.registry.declarations e.lineage)))
      ((d.declarations e.handle).filter
        (· ∉ firstOfEachName (c.registry.declarations e.lineage)))
      (c.registry.attributeProblems e.handle)
  /-- Each attribute that is declared along the ancestors is shown, or it is reported on the type
  that declares it with the owner of the one that is shown under its name. -/
  lossless : ∀ e ∈ c.entities, e.kind = .type → ∀ h ∈ e.lineage, ∃ d,
    c.registry.get? h = some d ∧ ∀ (index : Nat) (a : Attribute), d.attributes[index]? = some a →
      ∃ shown ∈ e.attributes, shown.name = a.name ∧
        (EntityAttribute.Shows c.registry ⟨h, index, a⟩ shown ∨
          ⟨d.name, .duplicateAttribute a.name (c.registry.name shown.owner)⟩ ∈
            c.registry.attributeProblems h)
  /-- Nothing but a type has such a report. -/
  silent : ∀ h, c.registry.attributeProblems h ≠ [] →
    ∃ e ∈ c.entities, e.handle = h ∧ e.kind = .type

namespace Registry

variable {r : Registry} {h : Handle} {d : Definition}

def lineage (r : Registry) (h : Handle) : List Handle :=
  ((Ancestry.ofRegistry r).chain? h).getD [h]

private theorem lineage_entityOf : (r.entityOf h d).lineage = r.lineage h := rfl

private theorem lineage_nodup (r : Registry) (h : Handle) : (r.lineage h).Nodup := by
  unfold lineage
  cases hchain : (Ancestry.ofRegistry r).chain? h with
  | none => exact List.nodup_singleton h
  | some chain =>
    obtain ⟨_, _, rfl⟩ := Ancestry.chain?_eq_some_iff.mp hchain
    exact ascent_nodup r h

private theorem lineage_eq_cons (hd : r.get? h = some d) : ∃ above, r.lineage h = h :: above :=
  List.head?_eq_some_iff.mp (head?_chain r hd)

private theorem entityOf_attributes (hkind : d.kind = .type) :
    (r.entityOf h d).attributes =
      (firstOfEachName (declaredAlong r (r.lineage h))).map (Entity.attributeOf r.links) := by
  simp only [entityOf, Entity.ofDefinition, if_pos hkind, Option.map_some, Option.getD_some]
  rw [effectiveOf, ofChain_attributes]
  rfl

private theorem attributes_prefix_of_parentType? {p : Handle} {dp : Definition}
    {chain : List Handle} (hd : r.get? h = some d) (hkind : d.kind = .type)
    (hdp : r.get? p = some dp) (hp : r.parentType? h = some p)
    (hchain : (Ancestry.ofRegistry r).chain? p = some chain) :
    (r.entityOf p dp).attributes <+: (r.entityOf h d).attributes := by
  have htype : r.kind? h = some .type := kind?_eq_some_iff.mpr ⟨d, hd, hkind⟩
  obtain ⟨dp', hdp', hpkind⟩ := kind?_eq_some_iff.mp (kind?_of_parentType? hp)
  obtain rfl : dp' = dp := Option.some.inj (hdp'.symm.trans hdp)
  have hlineage : r.lineage h = h :: chain := by
    rw [lineage, chain?_of_parentType? htype hp hchain, Option.getD_some]
  have hplineage : r.lineage p = chain := by rw [lineage, hchain, Option.getD_some]
  rw [entityOf_attributes hkind, entityOf_attributes hpkind, hlineage, hplineage]
  exact (firstOfEachName_prefix_of_suffix (List.suffix_cons h chain)).map _

private theorem lineage_suffix_of_isLine {k : Handle} {above : List Handle}
    (hkind : r.kind? h = some .type) (hline : IsLine r.parentType? (h :: above))
    (hk : k ∈ h :: above) : r.kind? k = some .type ∧ r.lineage k <:+ h :: above := by
  induction above generalizing h with
  | nil =>
    obtain rfl := List.mem_singleton.mp hk
    rw [lineage, chain?_eq_some_iff_isLine.mpr ⟨hkind, hline⟩]
    exact ⟨hkind, List.suffix_rfl⟩
  | cons p ps ih =>
    rcases List.mem_cons.mp hk with rfl | hk
    · rw [lineage, chain?_eq_some_iff_isLine.mpr ⟨hkind, hline⟩]
      exact ⟨hkind, List.suffix_rfl⟩
    · cases hline with
      | step hp hps =>
        obtain ⟨hktype, hsuffix⟩ := ih (kind?_of_parentType? hp) hps hk
        exact ⟨hktype, hsuffix.trans (List.suffix_cons h _)⟩

private theorem lineage_suffix {k : Handle} (hkind : r.kind? h = some .type)
    (hk : k ∈ r.lineage h) : r.kind? k = some .type ∧ r.lineage k <:+ r.lineage h := by
  cases hchain : (Ancestry.ofRegistry r).chain? h with
  | none =>
    obtain rfl : k = h := by simpa [lineage, hchain] using hk
    exact ⟨hkind, List.suffix_rfl⟩
  | some chain =>
    have hlineage : r.lineage h = chain := by rw [lineage, hchain, Option.getD_some]
    obtain ⟨d, hd, _⟩ := kind?_eq_some_iff.mp hkind
    obtain ⟨above, habove⟩ := lineage_eq_cons hd
    rw [hlineage] at habove
    rw [habove] at hchain hlineage
    rw [hlineage] at hk ⊢
    exact lineage_suffix_of_isLine hkind (chain?_eq_some_iff_isLine.mp hchain).2 hk

private theorem shows_attributeOf {a : Declared} (ha : a ∈ declared r h) :
    EntityAttribute.Shows r a (Entity.attributeOf r.links a) where
  owner := rfl
  name := rfl
  type := rfl
  sqlTable := rfl
  sqlColumn := rfl
  typeLink := by
    obtain ⟨rfl, d, hd, hcontent⟩ := mem_declared_iff.mp ha
    refine ⟨d, hd, hcontent, ?_⟩
    simp [Entity.attributeOf, links_get?, hd, Links.ofDefinition, hcontent]

private theorem declared_eq_declarations (hd : r.get? h = some d) :
    declared r h = d.declarations h := by
  rw [declared, hd, Option.map_some, Option.getD_some, Definition.declarations,
    List.mapIdx_eq_zipIdx_map]

private theorem declaredAlong_eq_declarations (r : Registry) (lineage : List Handle) :
    declaredAlong r lineage = r.declarations lineage := by
  unfold declaredAlong declarations
  congr 1
  funext h
  cases hd : r.get? h with
  | none => rw [declared, hd]; rfl
  | some d => exact declared_eq_declarations hd

private theorem attributeProblems_eq (r : Registry) (h : Handle) :
    r.attributeProblems h =
      ((r.get? h).map fun d => if d.kind = .type then (r.effectiveOf h).2 else []).getD [] := by
  rw [attributeProblems, effectiveProblems_eq_filed, filed_filter_eq, List.getElem?_map,
    ofAncestry_get?, Option.map_map]
  cases r.get? h with
  | none => rfl
  | some d =>
    rw [Option.map_some, Option.map_some, Option.getD_some, Option.getD_some,
      Function.comp_apply]
    split <;> rfl

private theorem attributeProblems_forall₂ (hd : r.get? h = some d) (hkind : d.kind = .type) :
    List.Forall₂ (SurplusProblem r (firstOfEachName (declaredAlong r (r.lineage h))))
      ((declared r h).filter (· ∉ firstOfEachName (declaredAlong r (r.lineage h))))
      (r.attributeProblems h) := by
  obtain ⟨above, habove⟩ := lineage_eq_cons hd
  have hnodup := lineage_nodup r h
  rw [habove] at hnodup
  have hproblems := ofChain_problems (r := r) hnodup
  rw [ofChain_attributes, ← habove] at hproblems
  rw [attributeProblems_eq, hd, Option.map_some, Option.getD_some, if_pos hkind]
  exact hproblems

private theorem exists_mem_of_forall₂ {R : Declared → Problem → Prop} {l : List Declared}
    {ps : List Problem} (h : List.Forall₂ R l ps) {a : Declared} (ha : a ∈ l) :
    ∃ p ∈ ps, R a p := by
  induction h with
  | nil => simp at ha
  | cons hab _ ih =>
    rcases List.mem_cons.mp ha with rfl | ha
    · exact ⟨_, List.mem_cons_self, hab⟩
    · obtain ⟨p, hp, hap⟩ := ih ha
      exact ⟨p, List.mem_cons_of_mem _ hp, hap⟩

/-- What an ancestor declares stands, or it is a problem of the ancestor. -/
private theorem stands_or_mem_attributeProblems {k : Handle} {a : Declared}
    (hkind : r.kind? h = some .type) (hk : k ∈ r.lineage h) (ha : a ∈ declared r k) :
    ∃ first ∈ firstOfEachName (declaredAlong r (r.lineage h)),
      first.content.name = a.content.name ∧
        (first = a ∨ ⟨r.name k, .duplicateAttribute a.content.name (r.name first.owner)⟩ ∈
          r.attributeProblems k) := by
  obtain ⟨hktype, hsuffix⟩ := lineage_suffix hkind hk
  obtain ⟨dk, hdk, hdkind⟩ := kind?_eq_some_iff.mp hktype
  have habove := (firstOfEachName_prefix_of_suffix (r := r) hsuffix).subset
  by_cases hstands : a ∈ firstOfEachName (declaredAlong r (r.lineage k))
  · exact ⟨a, habove hstands, rfl, .inl rfl⟩
  · obtain ⟨_, hp, first, hfirst, hname, rfl⟩ :=
      exists_mem_of_forall₂ (attributeProblems_forall₂ hdk hdkind)
        (List.mem_filter.mpr ⟨ha, decide_eq_true hstands⟩)
    rw [owner_of_mem_declared ha] at hp
    exact ⟨first, habove hfirst, hname, .inr hp⟩

end Registry

open Registry in
private theorem Catalog.accumulatesAttributes_ofRegistry (o : Options) (r : Registry) :
    (Catalog.ofRegistry o r).1.AccumulatesAttributes where
  entities := by
    refine List.ext_getElem? fun h => ?_
    rw [registry_ofRegistry, List.getElem?_map, List.getElem?_map, List.getElem?_zipIdx,
      entities_get?, Option.map_map, Option.map_map, Nat.zero_add]
    rfl
  distinct e he hkind := by
    obtain ⟨h, d, hd, rfl⟩ := mem_entities_iff.mp he
    have hnodup := nodup_names_ofChain r (r.lineage h)
    rw [ofChain_attributes] at hnodup
    rw [entityOf_attributes hkind, List.map_map]
    exact hnodup
  first e he hkind := by
    obtain ⟨h, d, hd, rfl⟩ := mem_entities_iff.mp he
    rw [entityOf_attributes hkind, registry_ofRegistry, lineage_entityOf,
      ← declaredAlong_eq_declarations, List.forall₂_map_right_iff, List.forall₂_same]
    intro a ha
    obtain ⟨k, _, hmem⟩ := List.mem_flatMap.mp (mem_of_mem_firstOfEachName ha)
    exact shows_attributeOf hmem
  inherited e he hkind p hp hparent hchain := by
    obtain ⟨h, d, hd, rfl⟩ := mem_entities_iff.mp he
    obtain ⟨k, dp, hdp, rfl⟩ := mem_entities_iff.mp hp
    have htype : r.kind? h = some .type := kind?_eq_some_iff.mpr ⟨d, hd, hkind⟩
    have hstep : r.parentType? h = some k := by
      rw [← parent?_ofRegistry o htype, Catalog.parent?, entities_get?, hd]
      exact hparent
    obtain ⟨chain, hchain⟩ := Option.ne_none_iff_exists'.mp hchain
    exact attributes_prefix_of_parentType? hd hkind hdp hstep hchain
  reports e he hkind d hd := by
    obtain ⟨h, d', hd', rfl⟩ := mem_entities_iff.mp he
    obtain rfl : d' = d := Option.some.inj (hd'.symm.trans hd)
    have hproblems := attributeProblems_forall₂ hd hkind
    rw [declared_eq_declarations hd, declaredAlong_eq_declarations] at hproblems
    exact hproblems
  lossless e he hkind k hk := by
    obtain ⟨h, d, hd, rfl⟩ := mem_entities_iff.mp he
    have htype : r.kind? h = some .type := kind?_eq_some_iff.mpr ⟨d, hd, hkind⟩
    obtain ⟨dk, hdk, _⟩ := kind?_eq_some_iff.mp (lineage_suffix htype hk).1
    refine ⟨dk, hdk, fun index a ha => ?_⟩
    have hmem : ⟨k, index, a⟩ ∈ declared r k := mem_declared_iff.mpr ⟨rfl, dk, hdk, ha⟩
    obtain ⟨first, hfirst, hname, hcases⟩ := stands_or_mem_attributeProblems htype hk hmem
    refine ⟨Entity.attributeOf r.links first, ?_, hname, ?_⟩
    · rw [entityOf_attributes hkind]
      exact List.mem_map_of_mem hfirst
    · rcases hcases with rfl | hproblem
      · exact .inl (shows_attributeOf hmem)
      · rw [name_of_get? hdk] at hproblem
        exact .inr hproblem
  silent h hne := by
    rw [registry_ofRegistry, attributeProblems_eq] at hne
    cases hd : r.get? h with
    | none => simp [hd] at hne
    | some d =>
      rw [hd, Option.map_some, Option.getD_some] at hne
      have hkind : d.kind = .type := by
        by_contra hkind
        exact hne (if_neg hkind)
      exact ⟨r.entityOf h d, mem_entities_iff.mpr ⟨h, d, hd, rfl⟩, rfl, hkind⟩

/-- Of every load the first attribute of each name stands, and no other is lost without a report. -/
theorem resolveAfter_accumulatesAttributes (log : Log) (o : Options) (blocks : List Block) :
    (resolveAfter log o blocks).catalog.AccumulatesAttributes :=
  Catalog.accumulatesAttributes_ofRegistry o _

end UiCatalog
