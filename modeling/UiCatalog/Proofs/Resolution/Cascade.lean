import UiCatalog.Proofs.Catalog.Forest
import UiCatalog.Proofs.Effective.Cascade
import UiCatalog.Proofs.Resolution.Accepted
import UiCatalog.Proofs.Resolution.Lineage
/-!
# Effective properties of a catalog

The entities of a catalog are those of the accepted blocks. The properties of a type cascade along
the blocks of its ancestors, and those of anything else are the ones that its block declares.
-/

namespace UiCatalog

def Catalog.parent? (c : Catalog) (h : Handle) : Option Handle :=
  ((c.entities[h]?).bind Entity.parent).bind Reference.target

/-- What properties the entities of a catalog have that come from blocks. -/
structure Catalog.CascadesProperties (kept : List Block) (c : Catalog) : Prop where
  /-- Entities are numbered like the blocks that they come from. -/
  entities : c.entities.map (fun e => (e.handle, e.kind, e.name)) =
    kept.zipIdx.map fun (b, h) => (h, b.kind, b.name)
  /-- The ancestors of a type go from itself up to one without parent, and its properties cascade
  along their blocks. -/
  chain : ∀ e ∈ c.entities, e.kind = .type → ∀ chain, e.ancestors = some chain →
    chain.head? = some e.handle ∧ IsLine c.parent? chain ∧
      ∃ bs ps, Handles kept chain bs ∧ e.properties = some ps ∧ ps.Cascade bs
  chainless : ∀ e ∈ c.entities, e.kind = .type → e.ancestors = none → e.properties = none
  plain : ∀ e ∈ c.entities, e.kind ≠ .type →
    ∃ b ps, kept[e.handle]? = some b ∧ e.properties = some ps ∧ ps.Cascade [b]

namespace Registry

variable {r : Registry} {h : Handle} {d : Definition}

private theorem entityOf_properties_of_type (hkind : d.kind = .type) :
    (r.entityOf h d).properties =
      ((Ancestry.ofRegistry r).chain? h).map fun _ => (r.effectiveOf h).1.properties := by
  simp only [entityOf, Entity.ofDefinition, if_pos hkind]

private theorem entityOf_properties_of_ne (hkind : d.kind ≠ .type) :
    (r.entityOf h d).properties = some d.properties := by
  simp only [entityOf, Entity.ofDefinition, if_neg hkind]

theorem parent?_ofRegistry (o : Options) (hkind : r.kind? h = some .type) :
    (Catalog.ofRegistry o r).1.parent? h = r.parentType? h := by
  obtain ⟨d, hd, hkind⟩ := kind?_eq_some_iff.mp hkind
  have hlineage : (Ancestry.ofRegistry r).lineage? h = some (Lineage.ofType r h d) := by
    rw [Ancestry.lineage?_ofRegistry, hd, Option.bind_some, if_pos hkind]
  have hparent : (Lineage.ofType r h d).parent = d.parent.map (⟨·, r.parentType? h⟩) := by
    unfold Lineage.ofType
    dsimp only
    split <;> rfl
  rw [Catalog.parent?, entities_get?, hd, Option.map_some, Option.bind_some]
  change ((Ancestry.ofRegistry r).parent? h).bind Reference.target = _
  rw [Ancestry.parent?, hlineage, Option.bind_some, hparent]
  cases hdeclared : d.parent with
  | none => simp [parentType?, hd, hdeclared]
  | some parent => rfl

private theorem isLine_ofRegistry (o : Options) {l : List Handle} (hl : IsLine r.parentType? l)
    (hhead : ∀ h ∈ l.head?, r.kind? h = some .type) :
    IsLine (Catalog.ofRegistry o r).1.parent? l := by
  induction hl with
  | @root h hnone => exact .root ((parent?_ofRegistry o (hhead h rfl)).trans hnone)
  | @step h p ps hp _ ih =>
    refine .step ((parent?_ofRegistry o (hhead h rfl)).trans hp) (ih fun q hq => ?_)
    obtain rfl := Option.some.inj hq
    exact kind?_of_parentType? hp

end Registry

namespace Blocks

variable {separator : Char} {kept : List Block}

private theorem get?_registry (separator : Char) (kept : List Block) (h : Handle) :
    (registry separator kept).get? h = (kept[h]?).map (Block.definition separator) :=
  List.getElem?_map

private theorem exists_handles {hs : List Handle}
    (hhs : ∀ h ∈ hs, h ∈ (registry separator kept).handles) : ∃ bs, Handles kept hs bs := by
  have hsize : (registry separator kept).size = kept.length := List.length_map _
  induction hs with
  | nil => exact ⟨[], .nil⟩
  | cons h hs ih =>
    obtain ⟨hlt, hhs⟩ := List.forall_mem_cons.mp hhs
    obtain ⟨bs, hbs⟩ := ih hhs
    rw [Registry.mem_handles, hsize] at hlt
    exact ⟨kept[h] :: bs, .cons (List.getElem?_eq_getElem hlt) hbs⟩

private theorem cascade_ofChain (separator : Char) {chain : List Handle} {bs : List Block}
    (hbs : Handles kept chain bs) :
    (Effective.ofChain (registry separator kept) chain).1.properties.Cascade bs := by
  have hown {h : Handle} {b : Block} (hb : kept[h]? = some b) :
      Effective.ownProperties (registry separator kept) h =
        (b.definition separator).properties := by
    rw [Effective.ownProperties, get?_registry, hb]
    rfl
  change Properties.Cascade bs (chain.reverse.foldl _ [])
  rw [List.foldl_reverse]
  induction hbs with
  | nil => exact .nil
  | cons hb _ ih =>
    rw [List.foldr_cons, hown hb]
    exact ih.cons separator _

private theorem cascadesProperties (o : Options) (kept : List Block) :
    (Catalog.ofRegistry o (registry o.separator kept)).1.CascadesProperties kept where
  entities := by
    refine List.ext_getElem? fun h => ?_
    rw [List.getElem?_map, List.getElem?_map, List.getElem?_zipIdx, Registry.entities_get?,
      get?_registry, Option.map_map, Option.map_map, Option.map_map]
    congr 1
    funext b
    simp [Registry.entityOf, Entity.ofDefinition]
  chain e he hkind chain hchain := by
    obtain ⟨h, d, hd, rfl⟩ := Registry.mem_entities_iff.mp he
    have hancestors : (Ancestry.ofRegistry (registry o.separator kept)).chain? h = some chain :=
      hchain
    obtain ⟨htype, hback, hpath⟩ := Ancestry.chain?_eq_some_iff.mp hancestors
    have hhandles : ∀ k ∈ chain, k ∈ (registry o.separator kept).handles := by
      rw [hpath]
      exact fun k hk => mem_of_mem_ascend hk
    have hline : IsLine (registry o.separator kept).parentType? chain := by
      rw [hpath]
      exact IsLine.ascend_path hback
    have hhead := Registry.head?_chain (registry o.separator kept) hd
    rw [hancestors, Option.getD_some] at hhead
    obtain ⟨bs, hbs⟩ := exists_handles hhandles
    refine ⟨hhead, ?_, bs, _, hbs, ?_, cascade_ofChain o.separator hbs⟩
    · refine Registry.isLine_ofRegistry o hline fun k hk => ?_
      rwa [← Option.some.inj (hhead.symm.trans hk)]
    · rw [Registry.entityOf_properties_of_type hkind, Registry.effectiveOf, hancestors]
      rfl
  chainless e he hkind hchain := by
    obtain ⟨h, d, hd, rfl⟩ := Registry.mem_entities_iff.mp he
    have hancestors : (Ancestry.ofRegistry (registry o.separator kept)).chain? h = none := hchain
    rw [Registry.entityOf_properties_of_type hkind, hancestors]
    rfl
  plain e he hkind := by
    obtain ⟨h, d, hd, rfl⟩ := Registry.mem_entities_iff.mp he
    rw [get?_registry] at hd
    obtain ⟨b, hb, rfl⟩ := Option.map_eq_some_iff.mp hd
    exact ⟨b, _, hb, Registry.entityOf_properties_of_ne hkind, .single o.separator b⟩

end Blocks

/-- Of every load the closest declaration of a property wins, and the root's keys stand first. -/
theorem resolveAfter_cascadesProperties (log : Log) (o : Options) (blocks : List Block) :
    (resolveAfter log o blocks).catalog.CascadesProperties
      (Blocks.accepted o.separator blocks) := by
  have hcatalog : (resolveAfter log o blocks).catalog =
      (Catalog.ofRegistry o (Intake.ofBlocks log o.separator blocks).registry).1 := rfl
  rw [hcatalog, Blocks.ofBlocks_registry]
  exact Blocks.cascadesProperties o _

end UiCatalog
