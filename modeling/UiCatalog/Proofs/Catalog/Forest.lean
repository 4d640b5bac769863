import UiCatalog.Proofs.Catalog.Contents
import UiCatalog.Proofs.Navigation.Trees
import UiCatalog.Proofs.Resolution.Intake
/-!
# The forest covers the menus

The trees below the roots show every command and menu that lies on no cycle of children, and nothing
that lies on one.
-/

namespace UiCatalog

open Relation UiCatalog.Graph

namespace Catalog

/-- The entity of `h` is a child, found by its name, of the entity of `p`. -/
def HasChild (c : Catalog) (p h : Handle) : Prop :=
  ∃ e, c.entities[p]? = some e ∧ h ∈ e.childHandles

/-- What the trees of a catalog show. -/
structure ShowsMenus (c : Catalog) : Prop where
  /-- What is marked as cyclic lies on a cycle of children, and all that does is marked. -/
  cyclic : ∀ e ∈ c.entities, e.cyclic = true ↔ TransGen c.HasChild e.handle e.handle
  /-- Exactly the entities that are not cyclic have a tree. -/
  trees : ∀ e ∈ c.entities, (∃ t, c.tree? e.name = some t) ↔ e.cyclic = false
  /-- Each command or menu on no cycle is shown below a root. -/
  covered : ∀ e ∈ c.entities, e.kind.isNavigable → ¬TransGen c.HasChild e.handle e.handle →
    ∃ root ∈ c.roots, ∃ t, c.tree? root.name = some t ∧ ∃ entry ∈ t, entry.node = e.handle
  /-- Nothing cyclic is shown. -/
  pruned : ∀ name t, c.tree? name = some t → ∀ entry ∈ t,
    ∃ e, c.entities[entry.node]? = some e ∧ e.cyclic = false
  /-- The roots are the commands and menus that stand below nothing. -/
  roots : ∀ e ∈ c.entities, e ∈ c.roots ↔ e.kind.isNavigable ∧ e.cyclic = false ∧
    ∀ d ∈ c.entities, d.cyclic = false → ∀ t, c.tree? d.name = some t →
      ∀ entry ∈ t, 1 ≤ entry.depth → entry.node ≠ e.handle
  /-- The forest has the tree of each root, in the order of the roots. -/
  forest : c.forest.map some = c.roots.map fun root => c.tree? root.name
  ascending : (c.roots.map Entity.handle).Pairwise (· < ·)

end Catalog

namespace Registry

variable {r : Registry} {o : Options}

theorem mem_entities_iff {e : Entity} :
    e ∈ (Catalog.ofRegistry o r).1.entities ↔
      ∃ h d, r.get? h = some d ∧ e = r.entityOf h d := by
  simp only [List.mem_iff_getElem?, entities_get?, Option.map_eq_some_iff]
  exact ⟨fun ⟨h, d, hd, he⟩ => ⟨h, d, hd, he.symm⟩, fun ⟨h, d, hd, he⟩ => ⟨h, d, hd, he.symm⟩⟩

private theorem childHandles_entityOf {h : Handle} {d : Definition} (hd : r.get? h = some d) :
    (r.entityOf h d).childHandles = r.graph.targets h := by
  simp [graph_targets, hd, Entity.childHandles, entityOf, Entity.ofDefinition, links_get?,
    Links.childHandles]

private theorem hasChild_iff {p h : Handle} :
    (Catalog.ofRegistry o r).1.HasChild p h ↔ r.graph.Edge p h := by
  unfold Catalog.HasChild
  rw [entities_get?]
  cases hd : r.get? p with
  | none => simp [Edge, graph_targets, hd]
  | some d => simp [Edge, childHandles_entityOf hd]

private theorem isCyclic_iff_transGen {h : Handle} :
    r.navigation.isCyclic h = true ↔ TransGen (Catalog.ofRegistry o r).1.HasChild h h := by
  have hrelation : (Catalog.ofRegistry o r).1.HasChild = r.graph.Edge := by
    funext p h
    exact propext hasChild_iff
  rw [hrelation]
  exact Navigation.isCyclic_ofCycles r r.graph_valid h

private theorem tree?_ofRegistry_name (hr : r.NamesDistinct) {h : Handle} {d : Definition}
    (hd : r.get? h = some d) :
    (Catalog.ofRegistry o r).1.tree? (r.entityOf h d).name = r.navigation.tree? h := by
  have hname : (r.entityOf h d).name = d.name := rfl
  rw [Catalog.tree?_ofRegistry, hname, hr.find?_name hd, Option.bind_some]

private theorem mem_roots_ofRegistry_iff {e : Entity} :
    e ∈ (Catalog.ofRegistry o r).1.roots ↔
      ∃ h d, r.get? h = some d ∧ h ∈ r.navigation.roots ∧ e = r.entityOf h d := by
  simp only [Catalog.roots, Catalog.entitiesAt, Catalog.navigation_ofRegistry, List.mem_filterMap,
    entities_get?, Option.map_eq_some_iff]
  exact ⟨fun ⟨h, hroot, d, hd, he⟩ => ⟨h, d, hd, hroot, he.symm⟩,
    fun ⟨h, d, hd, hroot, he⟩ => ⟨h, hroot, d, hd, he.symm⟩⟩

private theorem isNavigable_of_edge
    (hchildren : ∀ d ∈ r.definitions, d.children ≠ [] → d.kind.isNavigable) (u v : Handle)
    (hedge : r.graph.Edge u v) : ∃ k, r.kind? u = some k ∧ k.isNavigable := by
  obtain ⟨d, hd, c, hc, _⟩ := mem_graph_targets_iff.mp hedge
  exact ⟨d.kind, kind?_of_get? hd,
    hchildren d (List.mem_of_getElem? hd) (List.ne_nil_of_mem hc)⟩

private theorem tree?_isSome_iff {h : Handle} {d : Definition} (hd : r.get? h = some d) :
    (∃ t, r.navigation.tree? h = some t) ↔ r.navigation.isCyclic h = false := by
  constructor
  · rintro ⟨t, ht⟩
    exact (Navigation.tree?_eq_some_iff.mp ht).1
  · intro hcyclic
    have hlt : h < r.graph.size := by
      rw [graph_size]
      exact get?_eq_some_lt hd
    exact ⟨_, Navigation.tree?_eq_some_iff.mpr ⟨hcyclic, hlt, rfl⟩⟩

private theorem exists_entity_of_mem_tree? {h : Handle} {t : Array TreeEntry}
    (ht : r.navigation.tree? h = some t) {entry : TreeEntry} (hentry : entry ∈ t) :
    ∃ d, r.get? entry.node = some d ∧ r.navigation.isCyclic entry.node = false := by
  have hreach : ReflTransGen (Below r.navigation.shownChildren) h entry.node :=
    (Navigation.exists_tree?_entry_iff r.graph_valid ht).mp ⟨entry, hentry, rfl⟩
  obtain ⟨hcyclic, hlt, _⟩ := Navigation.tree?_eq_some_iff.mp ht
  refine ⟨_, get?_eq_getElem ?_, Navigation.isCyclic_of_reaches hcyclic hreach⟩
  rw [← graph_size]
  rcases ReflTransGen.cases_tail hreach with heq | ⟨u, _, hbelow⟩
  · exact heq ▸ hlt
  · exact Navigation.lt_size_of_mem_shownChildren r.graph_valid u _ hbelow

private theorem mem_roots_iff_tree? {h : Handle} : h ∈ r.navigation.roots ↔
    (∃ k, r.kind? h = some k ∧ k.isNavigable) ∧ r.navigation.isCyclic h = false ∧
      ∀ u, r.navigation.isCyclic u = false → ∀ t, r.navigation.tree? u = some t →
        ∀ entry ∈ t, 1 ≤ entry.depth → entry.node ≠ h := by
  refine Navigation.mem_roots_iff_below.trans (and_congr_right fun _ => and_congr_right fun _ => ?_)
  constructor
  · intro hnone u hu t ht entry hentry hdepth heq
    have hway : TransGen (Below r.navigation.shownChildren) u h :=
      (Navigation.exists_tree?_entry_depth_iff r.graph_valid ht).mp ⟨entry, hentry, hdepth, heq⟩
    obtain ⟨v, hreach, hbelow⟩ := TransGen.tail'_iff.mp hway
    exact hnone v (Navigation.isCyclic_of_reaches hu hreach) hbelow
  · intro hnone u hu hbelow
    have hlt : u < r.graph.size := (Navigation.below_shownChildren_iff.mp hbelow).1.lt_size
    have htree := Navigation.tree?_eq_some_iff.mpr ⟨hu, hlt, rfl⟩
    obtain ⟨entry, hentry, hdepth, heq⟩ :=
      (Navigation.exists_tree?_entry_depth_iff r.graph_valid htree).mpr (TransGen.single hbelow)
    exact hnone u hu _ htree entry hentry hdepth heq

private theorem exists_root_of_mem_roots {h : Handle} (hroot : h ∈ r.navigation.roots) :
    ∃ d, r.get? h = some d := by
  obtain ⟨⟨k, hkind, _⟩, _⟩ := Navigation.mem_roots_iff_below.mp hroot
  obtain ⟨d, hd, _⟩ := kind?_eq_some_iff.mp hkind
  exact ⟨d, hd⟩

private theorem roots_ofRegistry_handles :
    (Catalog.ofRegistry o r).1.roots.map Entity.handle = r.navigation.roots := by
  have hroots : ∀ h ∈ r.navigation.roots,
      ((Catalog.ofRegistry o r).1.entities[h]?).map Entity.handle = some h := by
    intro h hroot
    obtain ⟨d, hd⟩ := exists_root_of_mem_roots hroot
    rw [entities_get?, hd, Option.map_some, Option.map_some]
    rfl
  rw [Catalog.roots, Catalog.entitiesAt, List.map_filterMap, Catalog.navigation_ofRegistry,
    List.filterMap_congr hroots, List.filterMap_some]

private theorem forest_ofRegistry (hr : r.NamesDistinct) :
    (Catalog.ofRegistry o r).1.forest.map some =
      (Catalog.ofRegistry o r).1.roots.map fun root =>
        (Catalog.ofRegistry o r).1.tree? root.name := by
  have htrees : ∀ root ∈ (Catalog.ofRegistry o r).1.roots,
      (Catalog.ofRegistry o r).1.tree? root.name = r.navigation.tree? root.handle := by
    intro root hroot
    obtain ⟨h, d, hd, _, rfl⟩ := mem_roots_ofRegistry_iff.mp hroot
    exact tree?_ofRegistry_name hr hd
  have hsome : ∀ h ∈ r.navigation.roots,
      (r.navigation.tree? h).map some = some (r.navigation.tree? h) := by
    intro h hroot
    obtain ⟨d, hd⟩ := exists_root_of_mem_roots hroot
    obtain ⟨t, ht⟩ := (tree?_isSome_iff hd).mpr (Navigation.mem_roots_iff_below.mp hroot).2.1
    rw [ht, Option.map_some]
  calc (Catalog.ofRegistry o r).1.forest.map some
      = r.navigation.roots.map r.navigation.tree? := by
        rw [Catalog.forest, Catalog.navigation_ofRegistry, Navigation.forest, List.map_filterMap,
          List.filterMap_congr hsome, List.filterMap_eq_map']
    _ = ((Catalog.ofRegistry o r).1.roots.map Entity.handle).map r.navigation.tree? := by
        rw [roots_ofRegistry_handles]
    _ = _ := by
        rw [List.map_map]
        exact List.map_congr_left fun root hroot => (htrees root hroot).symm

private theorem entityOf_mem_roots_iff {h : Handle} {d : Definition} (hd : r.get? h = some d) :
    r.entityOf h d ∈ (Catalog.ofRegistry o r).1.roots ↔ h ∈ r.navigation.roots := by
  rw [mem_roots_ofRegistry_iff]
  constructor
  · rintro ⟨h', d', _, hroot, heq⟩
    have hhandle : h = h' := congrArg Entity.handle heq
    exact hhandle ▸ hroot
  · intro hroot
    exact ⟨h, d, hd, hroot, rfl⟩

private theorem showsMenus (o : Options) (hr : r.NamesDistinct)
    (hchildren : ∀ d ∈ r.definitions, d.children ≠ [] → d.kind.isNavigable) :
    (Catalog.ofRegistry o r).1.ShowsMenus where
  cyclic e he := by
    obtain ⟨h, d, _, rfl⟩ := mem_entities_iff.mp he
    exact isCyclic_iff_transGen
  trees e he := by
    obtain ⟨h, d, hd, rfl⟩ := mem_entities_iff.mp he
    rw [tree?_ofRegistry_name hr hd]
    exact tree?_isSome_iff hd
  covered e he hkind hcycle := by
    obtain ⟨h, d, hd, rfl⟩ := mem_entities_iff.mp he
    have hcyclic : r.navigation.isCyclic h = false := by
      rw [← Bool.not_eq_true, isCyclic_iff_transGen (o := o)]
      exact hcycle
    have hlt : h < r.graph.size := by
      rw [graph_size]
      exact get?_eq_some_lt hd
    obtain ⟨root, hroot, hreach⟩ := Navigation.exists_root_reaches r.graph_valid
      (isNavigable_of_edge hchildren) hlt ⟨d.kind, kind?_of_get? hd, hkind⟩ hcyclic
    obtain ⟨d', hd'⟩ := exists_root_of_mem_roots hroot
    obtain ⟨t, ht⟩ := (tree?_isSome_iff hd').mpr (Navigation.mem_roots_iff_below.mp hroot).2.1
    refine ⟨r.entityOf root d', mem_roots_ofRegistry_iff.mpr ⟨root, d', hd', hroot, rfl⟩, t, ?_, ?_⟩
    · rw [tree?_ofRegistry_name hr hd', ht]
    · exact (Navigation.exists_tree?_entry_iff r.graph_valid ht).mpr hreach
  pruned name t ht entry hentry := by
    obtain ⟨h, _, ht⟩ := Option.bind_eq_some_iff.mp ht
    obtain ⟨d, hd, hcyclic⟩ := exists_entity_of_mem_tree? ht hentry
    refine ⟨r.entityOf entry.node d, ?_, hcyclic⟩
    rw [entities_get?, hd, Option.map_some]
  roots e he := by
    obtain ⟨h, d, hd, rfl⟩ := mem_entities_iff.mp he
    have hkind : (∃ k, r.kind? h = some k ∧ k.isNavigable) ↔ d.kind.isNavigable := by
      simp [kind?_of_get? hd]
    rw [entityOf_mem_roots_iff hd, mem_roots_iff_tree?, hkind]
    refine and_congr_right fun _ => and_congr_right fun _ => ⟨fun hnone e he => ?_, fun hnone => ?_⟩
    · obtain ⟨u, d', hd', rfl⟩ := mem_entities_iff.mp he
      rw [tree?_ofRegistry_name hr hd']
      exact hnone u
    · intro u hu t ht
      obtain ⟨_, hlt, _⟩ := Navigation.tree?_eq_some_iff.mp ht
      have hd' : r.get? u = some _ := get?_eq_getElem ((graph_size r) ▸ hlt)
      refine hnone _ (mem_entities_iff.mpr ⟨u, _, hd', rfl⟩) hu t ?_
      rw [tree?_ofRegistry_name hr hd', ht]
  forest := forest_ofRegistry hr
  ascending := by
    rw [roots_ofRegistry_handles]
    exact Navigation.roots_pairwise_lt _ _ _

end Registry

/-- Whatever is resolved, from sources or from blocks as such, its trees show the menus. -/
theorem resolveAfter_showsMenus (log : Log) (o : Options) (blocks : List Block) :
    (resolveAfter log o blocks).catalog.ShowsMenus := by
  obtain ⟨accepted, _, hregistry, hclash⟩ := Intake.exists_accepted log o.separator blocks
  have hcatalog : (resolveAfter log o blocks).catalog =
      (Catalog.ofRegistry o (Intake.ofBlocks log o.separator blocks).registry).1 := rfl
  rw [hcatalog, hregistry]
  refine Registry.showsMenus o hclash.names fun d hd => ?_
  obtain ⟨b, _, rfl⟩ := List.mem_map.mp hd
  exact Block.isNavigable_of_children

end UiCatalog
