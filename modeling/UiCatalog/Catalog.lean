import UiCatalog.Entity
/-!
# The catalog

The catalog holds all entities of a load and answers questions about them.
-/

namespace UiCatalog

structure Catalog where
  registry : Registry
  entities : List Entity
  navigation : Navigation

namespace Catalog

def empty : Catalog :=
  ⟨Registry.empty, [], Navigation.empty⟩

def size (c : Catalog) : Nat :=
  c.entities.length

def get? (c : Catalog) (name : String) : Option Entity :=
  (c.registry.find? name).bind (c.entities[·]?)

def getUuid? (c : Catalog) (uuid : Uuid) : Option Entity :=
  (c.registry.findUuid? uuid).bind (c.entities[·]?)

def entitiesAt (c : Catalog) (handles : List Handle) : List Entity :=
  handles.filterMap (c.entities[·]?)

def ofKind (c : Catalog) (kind : Kind) : List Entity :=
  c.entitiesAt (c.registry.ofKind kind)

/-- The ancestors of an entity, closest first and without itself. -/
def ancestors (c : Catalog) (e : Entity) : List Entity :=
  c.entitiesAt ((e.ancestors.getD []).drop 1)

/-- The children of an entity that are shown below it. -/
def children (c : Catalog) (e : Entity) : List Entity :=
  c.entitiesAt (c.navigation.shownChildren e.handle)

def roots (c : Catalog) : List Entity :=
  c.entitiesAt c.navigation.roots

def tree? (c : Catalog) (name : String) : Option (Array Graph.TreeEntry) :=
  (c.registry.find? name).bind c.navigation.tree?

def forest (c : Catalog) : List (Array Graph.TreeEntry) :=
  c.navigation.forest

end Catalog

end UiCatalog
