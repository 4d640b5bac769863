import UiCatalog.Resolution
/-!
# Catalogs by name

Handles number the definitions in the order of their registration. What a catalog says apart from
that order is told by its entities and trees once each handle is replaced by the name it stands for.
-/

namespace UiCatalog

/-- A reference with the name of its target. -/
structure NamedReference where
  name : String
  target : Option String
deriving DecidableEq

def Reference.named (r : Registry) (x : Reference) : NamedReference :=
  ⟨x.name, x.target.map r.name⟩

structure NamedChild where
  kind : ChildKind
  reference : NamedReference
deriving DecidableEq

def ChildLink.named (r : Registry) (c : ChildLink) : NamedChild :=
  ⟨c.kind, c.reference.named r⟩

structure NamedExpand where
  raw : String
  head : NamedReference
  tail : String
deriving DecidableEq

def ExpandLink.named (r : Registry) (e : ExpandLink) : NamedExpand :=
  ⟨e.raw, e.head.named r, e.tail⟩

structure NamedTarget where
  area : Option String
  mode : Option String
  queryTypes : List NamedReference
  expand : Option NamedExpand
  table : Option NamedReference
  form : Option NamedReference
  menu : Option NamedReference
deriving DecidableEq

def TargetLinks.named (r : Registry) (t : TargetLinks) : NamedTarget :=
  { area := t.area
    mode := t.mode
    queryTypes := t.queryTypes.map (Reference.named r)
    expand := t.expand.map (ExpandLink.named r)
    table := t.table.map (Reference.named r)
    form := t.form.map (Reference.named r)
    menu := t.menu.map (Reference.named r) }

structure NamedAttribute where
  owner : String
  name : String
  type : Option AttributeType
  sqlTable : Option String
  sqlColumn : Option String
  typeLink : Option NamedReference
deriving DecidableEq

def EntityAttribute.named (r : Registry) (a : EntityAttribute) : NamedAttribute :=
  { owner := r.name a.owner
    name := a.name
    type := a.type
    sqlTable := a.sqlTable
    sqlColumn := a.sqlColumn
    typeLink := a.typeLink.map (Reference.named r) }

/-- An entity with names in place of handles, its own handle included. -/
structure NamedEntity where
  handle : String
  kind : Kind
  name : String
  uuid : Option Uuid
  icon : Option String
  parent : Option NamedReference
  ancestors : Option (List String)
  properties : Option Properties
  attributes : List NamedAttribute
  children : List NamedChild
  target : Option NamedTarget
  cyclic : Bool
  origin : Option Origin
deriving DecidableEq

def Entity.named (r : Registry) (e : Entity) : NamedEntity :=
  { handle := r.name e.handle
    kind := e.kind
    name := e.name
    uuid := e.uuid
    icon := e.icon
    parent := e.parent.map (Reference.named r)
    ancestors := e.ancestors.map (List.map r.name)
    properties := e.properties
    attributes := e.attributes.map (EntityAttribute.named r)
    children := e.children.map (ChildLink.named r)
    target := e.target.map (TargetLinks.named r)
    cyclic := e.cyclic
    origin := e.origin }

/-- An entry of a tree with the name of its node. -/
structure NamedEntry where
  node : String
  depth : Nat
  children : List Nat
deriving DecidableEq

def Graph.TreeEntry.named (r : Registry) (e : Graph.TreeEntry) : NamedEntry :=
  ⟨r.name e.node, e.depth, e.children⟩

namespace Catalog

def named? (c : Catalog) (name : String) : Option NamedEntity :=
  (c.get? name).map (Entity.named c.registry)

def namedTree? (c : Catalog) (name : String) : Option (Array NamedEntry) :=
  (c.tree? name).map (Array.map (Graph.TreeEntry.named c.registry))

def names (c : Catalog) : List String :=
  c.registry.definitions.map Definition.name

def rootNames (c : Catalog) : List String :=
  c.roots.map Entity.name

end Catalog

/-- Two loads say the same up to the numbers of their entities and the order of their reports. -/
structure Loaded.Agree (a b : Loaded) : Prop where
  names : a.catalog.names.Perm b.catalog.names
  entities : ∀ name, a.catalog.named? name = b.catalog.named? name
  roots : a.catalog.rootNames.Perm b.catalog.rootNames
  trees : ∀ name, a.catalog.namedTree? name = b.catalog.namedTree? name
  diagnostics : a.diagnostics.Perm b.diagnostics

end UiCatalog
