import UiCatalog.Proofs.Catalog.Clean
import UiCatalog.Proofs.Diagnostic.Log
import UiCatalog.Proofs.Links.Problems
import UiCatalog.Proofs.Resolution.Intake
import UiCatalog.Proofs.Resolution.Lineage
/-!
# A load is clean exactly if its blocks are well formed

Each part of a load reports nothing if and only if one part of being well formed holds, provided
that the parts before it do.
-/

namespace UiCatalog

open Relation

namespace Block.WellStated

variable {separator : Char} {b : Block} {offers : String → List Kind → Prop}

private theorem queryTypes_iff {P : String → Prop} :
    (∀ name ∈ (b.target separator).queryTypes, P name) ↔
      ∀ text, b.property? "TargetQueryTypes" = some text →
        ∀ name ∈ Target.separatedNames separator text, P name := by
  rw [Block.target]
  cases b.property? "TargetQueryTypes" <;> simp

private theorem expand_iff {P : String → Prop} :
    (∀ raw, (b.target separator).expand = some raw → P raw) ↔
      ∀ text, b.property? "TargetExpand" = some text →
        Text.trim text ≠ "" → P (Text.trim text) := by
  rw [Block.target]
  cases b.property? "TargetExpand" with
  | none => simp
  | some text =>
    by_cases hblank : Text.trim text = "" <;> simp [hblank]

private theorem target_linked_iff (hb : b.WellStated) :
    (∀ t, (b.definition separator).target = some t → t.Linked offers) ↔
      (b.kind.isNavigable → ∀ text, b.property? "TargetQueryTypes" = some text →
        ∀ name ∈ Target.separatedNames separator text, offers name [.type]) ∧
      (b.kind.isNavigable → ∀ text, b.property? "TargetExpand" = some text →
        Text.trim text ≠ "" → offers (splitExpand (Text.trim text)).1 [.type]) ∧
      (∀ name, .addTargetTable name ∈ b.statements → offers name [.table]) ∧
      (∀ name, .addTargetForm name ∈ b.statements → offers name [.form]) ∧
      ∀ name, .addTargetMenu name ∈ b.statements → offers name [.menu] := by
  have hlinked := Target.linked_iff offers (b.target separator)
  simp only [queryTypes_iff, expand_iff, hb.target_table_eq_some_iff, hb.target_form_eq_some_iff,
    hb.target_menu_eq_some_iff] at hlinked
  rw [hb.target_eq]
  by_cases hnavigable : b.kind.isNavigable = true
  · simp only [hnavigable, true_and, forall_const]
    rw [← hlinked]
    by_cases hempty : b.target separator = Target.empty
    · simp [hempty, Target.linked_empty]
    · simp [hempty]
  · have hnot {s : Statement} (hs : s ∈ b.statements) : s.allowedIn b.kind := hb.allowed s hs
    simp only [hnavigable, false_and, if_false, reduceCtorEq, false_imp_iff, implies_true, true_and,
      true_iff]
    exact ⟨fun _ hs => absurd (hnot hs) hnavigable, fun _ hs => absurd (hnot hs) hnavigable,
      fun _ hs => absurd (hnot hs) hnavigable⟩

private theorem children_linked_iff {o : Options} (hb : b.WellStated) :
    (∀ c ∈ (b.definition separator).children, offers c.name (Links.childKinds o c.kind)) ↔
      ∀ kind name, .addChild kind name ∈ b.statements → offers name (Links.childKinds o kind) := by
  simp only [hb.mem_children_iff]
  exact ⟨fun h kind name => h ⟨kind, name⟩, fun h c => h c.kind c.name⟩

private theorem attributes_linked_iff (hb : b.WellStated) :
    (∀ a ∈ (b.definition separator).attributes,
      (∀ link, a.typeLink = some link → offers link [.type]) ∧ (a.isLink → a.typeLink ≠ none)) ↔
      ∀ name body, .addAttribute name body ∈ b.statements →
        (∀ link, ⟨.typeLink, link⟩ ∈ body → offers link [.type]) ∧
        ∀ tag ∈ ["Link", "LinkWithRanges", "Status"], ⟨.type, tag⟩ ∈ body →
          ∃ link, ⟨.typeLink, link⟩ ∈ body := by
  simp only [hb.mem_attributes_iff]
  constructor
  · intro h name body hs
    have hfields := hb.fields name body hs
    have ha := h _ ⟨name, body, hs, rfl⟩
    simp only [Attribute.typeLink_ofBody hfields, Attribute.isLink_ofBody hfields] at ha
    refine ⟨ha.1, fun tag htag hbody => ?_⟩
    obtain ⟨link, hlink⟩ := Option.ne_none_iff_exists'.mp (ha.2 ⟨tag, htag, hbody⟩)
    exact ⟨link, (Attribute.typeLink_ofBody hfields).mp hlink⟩
  · rintro h a ⟨name, body, hs, rfl⟩
    have hfields := hb.fields name body hs
    obtain ⟨hlinks, htypes⟩ := h name body hs
    simp only [Attribute.typeLink_ofBody hfields, Attribute.isLink_ofBody hfields]
    refine ⟨hlinks, fun ⟨tag, htag, hbody⟩ => ?_⟩
    obtain ⟨link, hlink⟩ := htypes tag htag hbody
    exact Option.ne_none_iff_exists'.mpr ⟨link, (Attribute.typeLink_ofBody hfields).mpr hlink⟩

end Block.WellStated

namespace Registry.Holds

variable {r : Registry} {o : Options} {blocks : List Block}

private theorem offers_eq {separator : Char} (hr : r.Holds separator blocks) :
    r.Offers = Blocks.Offer blocks :=
  funext fun _ => funext fun _ => propext hr.offers_iff

private theorem linked_iff (hr : r.Holds o.separator blocks) :
    (∀ d ∈ r.definitions, Links.problems r o d = []) ↔ ∀ b ∈ blocks, b.Linked o blocks := by
  rw [hr.definitions, List.forall_mem_map]
  refine forall₂_congr fun b hmem => ?_
  have hb := hr.stated b hmem
  rw [Links.problems_eq_nil_iff, hr.offers_eq, hb.children_linked_iff, hb.target_linked_iff,
    hb.attributes_linked_iff]
  constructor
  · rintro ⟨hc, ⟨hq, he, ht, hf, hm⟩, ha⟩
    exact ⟨hc, ht, hf, hm, hq, he, fun name body hs => (ha name body hs).1,
      fun name body hs => (ha name body hs).2⟩
  · intro h
    exact ⟨h.children, ⟨h.queryTypes, h.expand, h.table, h.form, h.menu⟩,
      fun name body hs => ⟨h.typeLinks name body hs, h.linkTypes name body hs⟩⟩

private theorem parents_iff {separator : Char} (hr : r.Holds separator blocks) :
    (∀ h d, r.get? h = some d → d.kind = .type → ∀ parent ∈ d.parent, r.Offers parent [.type]) ↔
      ∀ a p, Blocks.Parent blocks a p → Blocks.Offer blocks p [.type] := by
  simp only [hr.offers_iff]
  constructor
  · rintro h _ p ⟨b, hb, rfl, hparent⟩
    obtain ⟨k, hk⟩ := List.mem_iff_getElem?.mp hb
    have hkind : b.kind = .type := by
      simpa [Statement.allowedIn] using (hr.stated b hb).allowed _ hparent
    exact h k (b.definition separator) (hr.get?_eq_some_iff.mpr ⟨b, hk, rfl⟩)
      ((Definition.ofBlock_kind separator b).trans hkind) p
      ((hr.stated b hb).parent_eq_some_iff.mpr hparent)
  · intro h k d hd _ p hparent
    obtain ⟨b, hb, rfl⟩ := hr.get?_eq_some_iff.mp hd
    exact h b.name p ⟨b, List.mem_of_getElem? hb, rfl,
      (hr.wellStated hb).parent_eq_some_iff.mp hparent⟩

private theorem problems_eq_nil_iff (hr : r.Holds o.separator blocks) :
    r.problems o = [] ↔
      (∀ a p, Blocks.Parent blocks a p → Blocks.Offer blocks p [.type]) ∧
      (∀ a, ¬TransGen (Blocks.Parent blocks) a a) ∧
      (∀ bs, Blocks.Lineage blocks bs → (bs.flatMap Block.attributeNames).Nodup) ∧
      (∀ b ∈ blocks, b.Linked o blocks) ∧
      ∀ a, ¬TransGen (Blocks.Child blocks) a a := by
  rw [Registry.problems_eq_nil_iff, hr.parents_iff, hr.linked_iff]
  refine and_congr_right fun hparents => ?_
  rw [hr.acyclicParents_iff hparents, hr.attributes_iff hparents]
  refine and_congr_right fun _ => and_congr_right fun _ => and_congr_right fun hlinked => ?_
  refine hr.acyclicChildren_iff fun a c hchild => ?_
  obtain ⟨b, hb, _, kind, hstatement⟩ := hchild
  obtain ⟨q, hq, hname, hkind⟩ := (hlinked b hb).children kind c hstatement
  exact ⟨q, hq, hname, Links.navigable_of_mem_childKinds hkind⟩

end Registry.Holds

end UiCatalog
