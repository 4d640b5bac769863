import UiCatalog.Proofs.Definition.Contents
/-!
# Declared properties

Every block may declare properties, so its definition has all that it declares, whether or not its
other statements are taken in.
-/

namespace UiCatalog

namespace Definition.Draft

private theorem properties_apply (d : Draft) (s : Statement) :
    (d.apply s).1.definition.properties =
      d.definition.properties.setAll (s.property?).toList := by
  cases s with
  | setUuid text =>
    unfold apply
    dsimp only
    split <;> rfl
  | addProperty key value => rfl
  | setParent | addIcon | addTargetTable | addTargetForm | addTargetMenu | addAttribute
  | addChild => rfl

private theorem properties_applyAll (d : Draft) (ss : List Statement) :
    (d.applyAll ss).1.definition.properties =
      d.definition.properties.setAll (ss.filterMap Statement.property?) := by
  induction ss generalizing d with
  | nil => rfl
  | cons s ss ih =>
    have hset : d.definition.properties.setAll ((s :: ss).filterMap Statement.property?) =
        (d.definition.properties.setAll (s.property?).toList).setAll
          (ss.filterMap Statement.property?) := by
      rw [List.filterMap_cons]
      cases s.property? <;> rfl
    rw [applyAll, hset]
    split
    · rw [ih, properties_apply]
    · rename_i hallowed
      have hnone : s.property? = none := by
        cases s <;> simp [Statement.allowedIn] at hallowed ⊢
      rw [ih, hnone]
      rfl

theorem properties_finish (d : Draft) (separator : Char) :
    (d.finish separator).properties = d.definition.properties := by
  unfold finish
  split <;> rfl

end Definition.Draft

namespace Block

def propertyKeys (b : Block) : List String :=
  b.statements.filterMap fun s => s.property?.map Prod.fst

private theorem definition_properties (separator : Char) (b : Block) :
    (b.definition separator).properties =
      Properties.setAll [] (b.statements.filterMap Statement.property?) :=
  (Definition.Draft.properties_finish _ separator).trans
    (Definition.Draft.properties_applyAll _ b.statements)

theorem nodup_definition_keys (separator : Char) (b : Block) :
    (b.definition separator).properties.keys.Nodup := by
  rw [definition_properties]
  exact Properties.nodup_keys_setAll Properties.nodup_keys_nil _

theorem definition_keys (separator : Char) (b : Block) :
    (b.definition separator).properties.keys = b.propertyKeys.eraseDups := by
  rw [definition_properties, Properties.keys_setAll Properties.nodup_keys_nil, Properties.keys,
    Properties.keys, List.map_nil, List.nil_append, List.map_filterMap, propertyKeys]

/-- Of a key that a block declares several times the last value counts. -/
theorem definition_get? (separator : Char) (b : Block) (key : String) :
    (b.definition separator).properties.get? key = b.property? key := by
  rw [definition_properties, Properties.get?_setAll]
  exact Option.or_none

end Block

end UiCatalog
