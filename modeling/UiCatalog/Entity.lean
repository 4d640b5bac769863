import UiCatalog.Effective
import UiCatalog.Links
import UiCatalog.Navigation
/-!
# Entities

An entity is a registered definition with everything resolved: its links, its ancestors, and what it
has from them.
-/

namespace UiCatalog

/-- An attribute that a type has, by itself or from an ancestor. -/
structure EntityAttribute where
  owner : Handle
  name : String
  type : Option AttributeType
  sqlTable : Option String
  sqlColumn : Option String
  typeLink : Option Reference
deriving DecidableEq

structure Entity where
  handle : Handle
  kind : Kind
  name : String
  uuid : Option Uuid
  icon : Option String
  parent : Option Reference
  /-- The type and its ancestors, closest first; only types that are not on or below a cycle of
  parents have it. -/
  ancestors : Option (List Handle)
  /-- The properties that count; a type without ancestors has none. -/
  properties : Option Properties
  attributes : List EntityAttribute
  children : List ChildLink
  target : Option TargetLinks
  /-- Whether the entity lies on a cycle of children. -/
  cyclic : Bool
  origin : Option Origin
deriving DecidableEq

namespace Entity

def property? (e : Entity) (key : String) : Option String :=
  e.properties.bind fun ps => Properties.get? ps key

def attribute? (e : Entity) (name : String) : Option EntityAttribute :=
  e.attributes.find? (·.name == name)

def childHandles (e : Entity) : List Handle :=
  e.children.filterMap (·.reference.target)

/-- A declared attribute with its type link as it was linked for its owner. -/
def attributeOf (links : List Links) (a : Declared) : EntityAttribute :=
  { owner := a.owner
    name := a.content.name
    type := a.content.type
    sqlTable := a.content.sqlTable
    sqlColumn := a.content.sqlColumn
    typeLink := ((links[a.owner]?).bind fun l => l.typeLinks[a.index]?).join }

def ofDefinition (h : Handle) (d : Definition) (a : Ancestry) (effective : Option Effective)
    (links : List Links) (n : Navigation) : Entity :=
  let own := links[h]?
  { handle := h
    kind := d.kind
    name := d.name
    uuid := d.uuid
    icon := d.icon
    parent := a.parent? h
    ancestors := a.chain? h
    properties := match effective with
      | none => some d.properties
      | some e => (a.chain? h).map fun _ => e.properties
    attributes := ((effective.map Effective.attributes).getD []).map (attributeOf links)
    children := (own.map Links.children).getD []
    target := own.bind Links.target
    cyclic := n.isCyclic h
    origin := d.origin }

end Entity

end UiCatalog
