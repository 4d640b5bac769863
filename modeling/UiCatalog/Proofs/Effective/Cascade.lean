import UiCatalog.Proofs.Definition.Properties
/-!
# The cascade of properties

Along a chain of blocks, closest first, the closest value of a key counts, while the keys stand in
the order in which they first appear from the far end of the chain on.
-/

namespace UiCatalog

/-- Whether properties are those that blocks declare along a chain, closest first. -/
structure Properties.Cascade (chain : List Block) (ps : Properties) : Prop where
  /-- The first block that declares a key gives its value. -/
  value : ∀ key, ps.get? key = chain.findSome? fun b => b.property? key
  keys : ps.keys = (chain.reverse.flatMap Block.propertyKeys).eraseDups
  nodup : ps.keys.Nodup

namespace Properties.Cascade

theorem nil : Cascade [] [] :=
  ⟨fun _ => rfl, rfl, nodup_keys_nil⟩

theorem single (separator : Char) (b : Block) :
    Cascade [b] (b.definition separator).properties where
  value key := by
    rw [b.definition_get?, List.findSome?_cons]
    cases b.property? key <;> rfl
  keys := by
    rw [b.definition_keys]
    simp
  nodup := b.nodup_definition_keys separator

theorem cons {chain : List Block} {ps : Properties} (h : Cascade chain ps) (separator : Char)
    (b : Block) : Cascade (b :: chain) (ps.setAll (b.definition separator).properties) where
  value key := by
    rw [get?_setAll, lookup_reverse (b.nodup_definition_keys separator), b.definition_get?,
      List.findSome?_cons, h.value]
    cases b.property? key <;> rfl
  keys := by
    rw [keys_setAll h.nodup, b.definition_keys, h.keys, eraseDups_append_eraseDups,
      List.reverse_cons, List.flatMap_append]
    simp
  nodup := nodup_keys_setAll h.nodup _

end Properties.Cascade

end UiCatalog
