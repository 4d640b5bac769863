import UiCatalog.Proofs.Effective.Settle
import UiCatalog.Proofs.Registry.Blocks
/-!
# Lineages and attributes

The lineages of blocks are the lines of handles from types up, and the attributes declared along the
one are those along the other.
-/

namespace UiCatalog

open Relation

/-- Whether the handles of a list are those of the blocks of another one. -/
def Handles (blocks : List Block) : List Handle → List Block → Prop :=
  List.Forall₂ fun h b => blocks[h]? = some b

namespace Registry.Holds

variable {r : Registry} {separator : Char} {blocks : List Block}

private theorem exists_line (hr : r.Holds separator blocks) {bs : List Block}
    (hbs : Blocks.Lineage blocks bs) :
    ∃ hs, Handles blocks hs bs ∧ IsLine r.parentType? hs := by
  induction hbs with
  | @root b hb _ hnone =>
    obtain ⟨h, hh⟩ := List.mem_iff_getElem?.mp hb
    refine ⟨[h], .cons hh .nil, .root ?_⟩
    cases hp : r.parentType? h with
    | none => rfl
    | some p =>
      obtain ⟨q, _, _, hparent⟩ := (hr.parentType?_iff hh).mp hp
      exact absurd hparent (hnone q.name)
  | @step b p ps hb _ hp hps ih =>
    obtain ⟨h, hh⟩ := List.mem_iff_getElem?.mp hb
    obtain ⟨_, hhs, hline⟩ := ih
    cases hhs with
    | @cons k _ ks _ hk hks =>
      have hkind : p.kind = .type := by
        cases hps <;> assumption
      have hparent : r.parentType? h = some k := (hr.parentType?_iff hh).mpr ⟨p, hk, hkind, hp⟩
      exact ⟨h :: k :: ks, .cons hh (.cons hk hks), .step hparent hline⟩

private theorem exists_lineage (hr : r.Holds separator blocks)
    (hparents : ∀ a p, Blocks.Parent blocks a p → Blocks.Offer blocks p [.type])
    {h : Handle} {l : List Handle} (hkind : r.kind? h = some .type)
    (hline : IsLine r.parentType? (h :: l)) :
    ∃ bs, Handles blocks (h :: l) bs ∧ Blocks.Lineage blocks bs := by
  have hblock {h : Handle} (hkind : r.kind? h = some .type) :
      ∃ b, blocks[h]? = some b ∧ b.kind = .type := by
    obtain ⟨d, hd, _⟩ := kind?_eq_some_iff.mp hkind
    obtain ⟨b, hb, _⟩ := hr.get?_eq_some_iff.mp hd
    exact ⟨b, hb, Option.some.inj ((hr.kind? hb).symm.trans hkind)⟩
  induction l generalizing h with
  | nil =>
    obtain ⟨b, hb, hbkind⟩ := hblock hkind
    refine ⟨[b], .cons hb .nil, .root (List.mem_of_getElem? hb) hbkind fun p hp => ?_⟩
    obtain ⟨q, hq, rfl, hqkind⟩ := hparents b.name p ⟨b, List.mem_of_getElem? hb, rfl, hp⟩
    obtain ⟨k, hk⟩ := List.mem_iff_getElem?.mp hq
    have hparent : r.parentType? h = some k :=
      (hr.parentType?_iff hb).mpr ⟨q, hk, List.mem_singleton.mp hqkind, hp⟩
    cases hline with
    | root hnone => exact absurd (hnone.symm.trans hparent) (by simp)
  | cons k ks ih =>
    obtain ⟨b, hb, hbkind⟩ := hblock hkind
    cases hline with
    | step hk hks =>
      obtain ⟨q, hq, _, hparent⟩ := (hr.parentType?_iff hb).mp hk
      obtain ⟨bs, hbs, hlineage⟩ := ih (kind?_of_parentType? hk) hks
      cases hbs with
      | cons hq' hbs =>
        obtain rfl := Option.some.inj (hq.symm.trans hq')
        exact ⟨_, .cons hb (.cons hq hbs),
          .step (List.mem_of_getElem? hb) hbkind hparent hlineage⟩

private theorem names_declared (hr : r.Holds separator blocks) {h : Handle} {b : Block}
    (hb : blocks[h]? = some b) :
    Effective.names (Effective.declared r h) = b.attributeNames := by
  rw [Effective.names_declared (hr.get?_eq_some_iff.mpr ⟨b, hb, rfl⟩)]
  exact (hr.wellStated hb).attributes_names

private theorem names_perm (hr : r.Holds separator blocks) {hs : List Handle} {bs : List Block}
    (hhs : Handles blocks hs bs) :
    (Effective.names (hs.reverse.flatMap (Effective.declared r))).Perm
      (bs.flatMap Block.attributeNames) := by
  have hnames : Effective.names (hs.flatMap (Effective.declared r)) =
      bs.flatMap Block.attributeNames := by
    induction hhs with
    | nil => rfl
    | cons hb _ ih =>
      rw [List.flatMap_cons, List.flatMap_cons, ← ih, ← hr.names_declared hb, Effective.names,
        List.map_append]
      rfl
  rw [← hnames]
  exact (hs.reverse_perm.flatMap_right _).map _

/-- No attribute name occurs twice along a line if and only if none does along a lineage. -/
theorem attributes_iff (hr : r.Holds separator blocks)
    (hparents : ∀ a p, Blocks.Parent blocks a p → Blocks.Offer blocks p [.type]) :
    (∀ h l, r.kind? h = some .type → IsLine r.parentType? (h :: l) →
      (Effective.names ((h :: l).reverse.flatMap (Effective.declared r))).Nodup) ↔
      ∀ bs, Blocks.Lineage blocks bs → (bs.flatMap Block.attributeNames).Nodup := by
  constructor
  · intro hnodup bs hbs
    obtain ⟨hs, hhs, hline⟩ := hr.exists_line hbs
    refine (hr.names_perm hhs).nodup_iff.mp ?_
    have hkind : ∀ b ∈ bs.head?, b.kind = .type := by
      cases hbs <;> simpa
    cases hhs with
    | nil => cases hbs
    | cons hb _ =>
      exact hnodup _ _ ((hr.kind? hb).trans (congrArg some (hkind _ rfl))) hline
  · intro hnodup h l hkind hline
    obtain ⟨bs, hhs, hbs⟩ := hr.exists_lineage hparents hkind hline
    exact (hr.names_perm hhs).nodup_iff.mpr (hnodup bs hbs)

end Registry.Holds

end UiCatalog
