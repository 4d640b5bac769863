import UiCatalog.Proofs.Ancestry.Line
import UiCatalog.Proofs.Catalog.Contents
import UiCatalog.Proofs.Resolution.WellFormed
/-!
# Registries of blocks

A registry that holds the definitions of well stated blocks with distinct names says by handle what
the blocks say by name: what is offered, who is whose parent and who is whose child.
-/

namespace UiCatalog.Registry

open Relation

/-- Round trips are the same by handle and by name if the steps are. -/
private theorem acyclic_iff {r : Registry} {R : Handle → Handle → Prop} {S : String → String → Prop}
    (hname : ∀ h k, R h k → S (r.name h) (r.name k))
    (hhandle : ∀ a c, S a c → ∃ h k, r.find? a = some h ∧ r.find? c = some k ∧ R h k) :
    (∀ h, ¬TransGen R h h) ↔ ∀ a, ¬TransGen S a a := by
  have hway {a c : String} (hac : TransGen S a c) :
      ∃ h k, r.find? a = some h ∧ r.find? c = some k ∧ TransGen R h k := by
    induction hac with
    | single hstep =>
      obtain ⟨h, k, hh, hk, hhk⟩ := hhandle _ _ hstep
      exact ⟨h, k, hh, hk, TransGen.single hhk⟩
    | tail _ hstep ih =>
      obtain ⟨h, k, hh, hk, hhk⟩ := ih
      obtain ⟨k', m, hk', hm, hkm⟩ := hhandle _ _ hstep
      obtain rfl := Option.some.inj (hk.symm.trans hk')
      exact ⟨h, m, hh, hm, TransGen.tail hhk hkm⟩
  constructor
  · intro hacyclic a hround
    obtain ⟨h, k, hh, hk, hhk⟩ := hway hround
    obtain rfl := Option.some.inj (hh.symm.trans hk)
    exact hacyclic h hhk
  · exact fun hacyclic h hround => hacyclic (r.name h) (hround.lift r.name hname)

/-- Whether a registry holds the definitions of well stated blocks with distinct names. -/
structure Holds (r : Registry) (separator : Char) (blocks : List Block) : Prop where
  definitions : r.definitions = blocks.map (Block.definition separator)
  stated : ∀ b ∈ blocks, b.WellStated
  names : (blocks.map Block.name).Nodup

namespace Holds

variable {r : Registry} {separator : Char} {blocks : List Block}

private theorem get? (hr : r.Holds separator blocks) (h : Handle) :
    r.get? h = (blocks[h]?).map (Block.definition separator) := by
  rw [Registry.get?, hr.definitions, List.getElem?_map]

theorem get?_eq_some_iff (hr : r.Holds separator blocks) {h : Handle} {d : Definition} :
    r.get? h = some d ↔ ∃ b, blocks[h]? = some b ∧ b.definition separator = d := by
  rw [hr.get?, Option.map_eq_some_iff]

private theorem name (hr : r.Holds separator blocks) {h : Handle} {b : Block}
    (hb : blocks[h]? = some b) : r.name h = b.name := by
  rw [name_of_get? (hr.get?_eq_some_iff.mpr ⟨b, hb, rfl⟩)]
  exact Definition.ofBlock_name separator b

theorem kind? (hr : r.Holds separator blocks) {h : Handle} {b : Block} (hb : blocks[h]? = some b) :
    r.kind? h = some b.kind := by
  rw [kind?_of_get? (hr.get?_eq_some_iff.mpr ⟨b, hb, rfl⟩)]
  exact congrArg some (Definition.ofBlock_kind separator b)

theorem wellStated (hr : r.Holds separator blocks) {h : Handle} {b : Block}
    (hb : blocks[h]? = some b) : b.WellStated :=
  hr.stated b (List.mem_of_getElem? hb)

private theorem namesDistinct (hr : r.Holds separator blocks) : r.NamesDistinct := by
  rw [NamesDistinct, hr.definitions, Block.map_definition_name]
  exact hr.names

private theorem find?_eq_some_iff (hr : r.Holds separator blocks) {name : String} {h : Handle} :
    r.find? name = some h ↔ ∃ b, blocks[h]? = some b ∧ b.name = name := by
  constructor
  · intro hf
    obtain ⟨d, hd, hname⟩ := get?_of_find? hf
    obtain ⟨b, hb, rfl⟩ := hr.get?_eq_some_iff.mp hd
    exact ⟨b, hb, (Definition.ofBlock_name separator b).symm.trans hname⟩
  · rintro ⟨b, hb, rfl⟩
    have hf := hr.namesDistinct.find?_name (hr.get?_eq_some_iff.mpr ⟨b, hb, rfl⟩)
    exact (congrArg r.find? (Definition.ofBlock_name separator b)).symm.trans hf

theorem offers_iff (hr : r.Holds separator blocks) {name : String} {kinds : List Kind} :
    r.Offers name kinds ↔ Blocks.Offer blocks name kinds := by
  simp only [Offers, hr.find?_eq_some_iff, Blocks.Offer]
  constructor
  · rintro ⟨h, k, ⟨b, hb, hname⟩, hk, hkinds⟩
    obtain rfl := Option.some.inj ((hr.kind? hb).symm.trans hk)
    exact ⟨b, List.mem_of_getElem? hb, hname, hkinds⟩
  · rintro ⟨b, hb, hname, hkinds⟩
    obtain ⟨h, hh⟩ := List.mem_iff_getElem?.mp hb
    exact ⟨h, b.kind, ⟨b, hh, hname⟩, hr.kind? hh, hkinds⟩

theorem parentType?_iff (hr : r.Holds separator blocks) {h p : Handle} {b : Block}
    (hb : blocks[h]? = some b) :
    r.parentType? h = some p ↔
      ∃ q, blocks[p]? = some q ∧ q.kind = .type ∧ .setParent q.name ∈ b.statements := by
  simp only [← inherits_iff, Inherits, hr.find?_eq_some_iff]
  constructor
  · rintro ⟨d, parent, hd, hparent, ⟨q, hq, rfl⟩, hkind⟩
    obtain ⟨b', hb', rfl⟩ := hr.get?_eq_some_iff.mp hd
    obtain rfl := Option.some.inj (hb.symm.trans hb')
    rw [hr.kind? hq, Option.some.injEq] at hkind
    exact ⟨q, hq, hkind, (hr.wellStated hb).parent_eq_some_iff.mp hparent⟩
  · rintro ⟨q, hq, hkind, hparent⟩
    exact ⟨_, q.name, hr.get?_eq_some_iff.mpr ⟨b, hb, rfl⟩,
      (hr.wellStated hb).parent_eq_some_iff.mpr hparent, ⟨q, hq, rfl⟩, (hr.kind? hq).trans
      (congrArg some hkind)⟩

private theorem edge_iff (hr : r.Holds separator blocks) {h k : Handle} :
    r.graph.Edge h k ↔ ∃ b c, blocks[h]? = some b ∧ blocks[k]? = some c ∧
      (c.kind = .command ∨ c.kind = .menu) ∧ ∃ kind, .addChild kind c.name ∈ b.statements := by
  change k ∈ r.graph.targets h ↔ _
  simp only [mem_graph_targets_iff, hr.get?_eq_some_iff, hr.find?_eq_some_iff]
  constructor
  · rintro ⟨_, ⟨b, hb, rfl⟩, child, hchild, ⟨c, hc, hname⟩, hkind⟩
    rw [hr.kind? hc, Option.some.injEq, Option.some.injEq] at hkind
    refine ⟨b, c, hb, hc, hkind, child.kind, ?_⟩
    rw [hname]
    exact (hr.wellStated hb).mem_children_iff.mp hchild
  · rintro ⟨b, c, hb, hc, hkind, kind, hchild⟩
    refine ⟨_, ⟨b, hb, rfl⟩, ⟨kind, c.name⟩, (hr.wellStated hb).mem_children_iff.mpr hchild,
      ⟨c, hc, rfl⟩, ?_⟩
    rwa [hr.kind? hc, Option.some.injEq, Option.some.injEq]

/-- If every parent is a type, then parents go round by handle if and only if they do by name. -/
theorem acyclicParents_iff (hr : r.Holds separator blocks)
    (hparents : ∀ a p, Blocks.Parent blocks a p → Blocks.Offer blocks p [.type]) :
    (∀ h, ¬TransGen r.Inherits h h) ↔ ∀ a, ¬TransGen (Blocks.Parent blocks) a a := by
  refine acyclic_iff (r := r) (fun h p hp => ?_) fun a p hp => ?_
  · have ⟨_, _, hd, _⟩ := hp
    obtain ⟨b, hb, _⟩ := hr.get?_eq_some_iff.mp hd
    obtain ⟨q, hq, _, hparent⟩ := (hr.parentType?_iff hb).mp (inherits_iff.mp hp)
    rw [hr.name hb, hr.name hq]
    exact ⟨b, List.mem_of_getElem? hb, rfl, hparent⟩
  · obtain ⟨q, hq, rfl, hkind⟩ := hparents a p hp
    obtain ⟨b, hb, rfl, hparent⟩ := hp
    obtain ⟨h, hh⟩ := List.mem_iff_getElem?.mp hb
    obtain ⟨k, hk⟩ := List.mem_iff_getElem?.mp hq
    exact ⟨h, k, hr.find?_eq_some_iff.mpr ⟨b, hh, rfl⟩, hr.find?_eq_some_iff.mpr ⟨q, hk, rfl⟩,
      inherits_iff.mpr
        ((hr.parentType?_iff hh).mpr ⟨q, hk, List.mem_singleton.mp hkind, hparent⟩)⟩

theorem acyclicChildren_iff (hr : r.Holds separator blocks)
    (hchildren : ∀ a c, Blocks.Child blocks a c → Blocks.Offer blocks c [.command, .menu]) :
    (∀ h, ¬TransGen r.graph.Edge h h) ↔ ∀ a, ¬TransGen (Blocks.Child blocks) a a := by
  refine acyclic_iff (r := r) (fun h k hk => ?_) fun a c hc => ?_
  · obtain ⟨b, c, hb, hc, _, hchild⟩ := hr.edge_iff.mp hk
    rw [hr.name hb, hr.name hc]
    exact ⟨b, List.mem_of_getElem? hb, rfl, hchild⟩
  · obtain ⟨q, hq, rfl, hkind⟩ := hchildren a c hc
    obtain ⟨b, hb, rfl, hchild⟩ := hc
    obtain ⟨h, hh⟩ := List.mem_iff_getElem?.mp hb
    obtain ⟨k, hk⟩ := List.mem_iff_getElem?.mp hq
    refine ⟨h, k, hr.find?_eq_some_iff.mpr ⟨b, hh, rfl⟩, hr.find?_eq_some_iff.mpr ⟨q, hk, rfl⟩,
      hr.edge_iff.mpr ⟨b, q, hh, hk, ?_, hchild⟩⟩
    simpa using hkind

end Holds

end UiCatalog.Registry
