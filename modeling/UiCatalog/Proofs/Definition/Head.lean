import UiCatalog.Definition.OfBlock
/-!
# The head of a definition

Statements change what a definition holds, never its kind, its name or its origin; those are the
block's. A definition that holds children is a command or a menu.
-/

namespace UiCatalog

namespace Definition

/-- Whether two definitions are of one kind, with one name and from one place. -/
structure SameHead (d e : Definition) : Prop where
  kind : d.kind = e.kind
  name : d.name = e.name
  origin : d.origin = e.origin

private theorem SameHead.trans {d e f : Definition} (h : SameHead d e) (h' : SameHead e f) :
    SameHead d f :=
  ⟨h.kind.trans h'.kind, h.name.trans h'.name, h.origin.trans h'.origin⟩

namespace Draft

theorem sameHead_apply (d : Draft) (s : Statement) :
    SameHead (d.apply s).1.definition d.definition := by
  cases s with
  | setUuid text =>
    unfold apply
    dsimp only
    split <;> exact ⟨rfl, rfl, rfl⟩
  | _ => exact ⟨rfl, rfl, rfl⟩

theorem sameHead_applyAll (d : Draft) (ss : List Statement) :
    SameHead (d.applyAll ss).1.definition d.definition := by
  induction ss generalizing d with
  | nil => exact ⟨rfl, rfl, rfl⟩
  | cons s ss ih =>
    rw [applyAll]
    split
    · exact (ih (d.apply s).1).trans (d.sameHead_apply s)
    · exact ih d

private theorem sameHead_finish (d : Draft) (separator : Char) :
    SameHead (d.finish separator) d.definition := by
  unfold finish
  split <;> exact ⟨rfl, rfl, rfl⟩

private theorem children_apply (d : Draft) (s : Statement) :
    (d.apply s).1.definition.children = d.definition.children ∨
      ∃ kind name, s = .addChild kind name := by
  cases s with
  | setUuid text =>
    unfold apply
    dsimp only
    split <;> exact Or.inl rfl
  | addChild kind name => exact Or.inr ⟨kind, name, rfl⟩
  | _ => exact Or.inl rfl

private theorem isNavigable_of_children_applyAll {d : Draft} {ss : List Statement}
    (hd : d.definition.children ≠ [] → d.definition.kind.isNavigable)
    (hchildren : (d.applyAll ss).1.definition.children ≠ []) :
    d.definition.kind.isNavigable := by
  induction ss generalizing d with
  | nil => exact hd hchildren
  | cons s ss ih =>
    rw [applyAll] at hchildren
    split at hchildren
    · rename_i hallowed
      have hkind : (d.apply s).1.definition.kind = d.definition.kind := (d.sameHead_apply s).kind
      rw [← hkind]
      refine ih (fun hsome => ?_) hchildren
      rw [hkind]
      rcases d.children_apply s with hsame | ⟨kind, name, rfl⟩
      · exact hd (hsame ▸ hsome)
      · exact hallowed
    · exact ih hd hchildren

private theorem children_finish (d : Draft) (separator : Char) :
    (d.finish separator).children = d.definition.children := by
  unfold finish
  split <;> rfl

end Draft

private theorem sameHead_ofBlock (separator : Char) (b : Block) :
    SameHead (ofBlock separator b).1 (bare b.kind b.name b.origin) :=
  (Draft.sameHead_finish _ separator).trans (Draft.sameHead_applyAll _ b.statements)

theorem ofBlock_kind (separator : Char) (b : Block) : (ofBlock separator b).1.kind = b.kind :=
  (sameHead_ofBlock separator b).kind

theorem ofBlock_name (separator : Char) (b : Block) : (ofBlock separator b).1.name = b.name :=
  (sameHead_ofBlock separator b).name

theorem ofBlock_origin (separator : Char) (b : Block) :
    (ofBlock separator b).1.origin = b.origin :=
  (sameHead_ofBlock separator b).origin

end Definition

def Block.definition (separator : Char) (b : Block) : Definition :=
  (Definition.ofBlock separator b).1

@[simp]
theorem Block.definition_kind (separator : Char) (b : Block) :
    (b.definition separator).kind = b.kind :=
  Definition.ofBlock_kind separator b

@[simp]
theorem Block.definition_name (separator : Char) (b : Block) :
    (b.definition separator).name = b.name :=
  Definition.ofBlock_name separator b

theorem Block.definition_origin (separator : Char) (b : Block) :
    (b.definition separator).origin = b.origin :=
  Definition.ofBlock_origin separator b

theorem Block.isNavigable_of_children {separator : Char} {b : Block}
    (h : (b.definition separator).children ≠ []) : (b.definition separator).kind.isNavigable := by
  rw [definition, Definition.ofBlock, Definition.Draft.children_finish] at h
  rw [definition_kind]
  refine Definition.Draft.isNavigable_of_children_applyAll ?_ h
  intro hnone
  exact absurd rfl hnone

theorem Block.map_definition_name (separator : Char) (blocks : List Block) :
    (blocks.map (Block.definition separator)).map Definition.name = blocks.map Block.name := by
  rw [List.map_map]
  exact List.map_congr_left fun b _ => definition_name separator b

end UiCatalog
