import UiCatalog.AttributeType
import UiCatalog.Kind
import UiCatalog.Properties
import UiCatalog.Text.Position
import UiCatalog.Uuid
/-!
# Definitions

A definition holds what a block declares, sorted by field. Other definitions are still referred to
by name.
-/

namespace UiCatalog

structure Attribute where
  name : String
  type : Option AttributeType
  sqlTable : Option String
  sqlColumn : Option String
  typeLink : Option String
deriving DecidableEq

def Attribute.isLink (a : Attribute) : Bool :=
  a.type.any AttributeType.isLink

structure Child where
  kind : ChildKind
  name : String
deriving DecidableEq

structure Target where
  /-- The area in which it opens. -/
  area : Option String
  mode : Option String
  /-- The types whose instances are shown. -/
  queryTypes : List String
  /-- The relation to follow, a type and a path from it. -/
  expand : Option String
  table : Option String
  form : Option String
  menu : Option String
deriving DecidableEq

def Target.empty : Target :=
  ⟨none, none, [], none, none, none, none⟩

structure Definition where
  kind : Kind
  name : String
  uuid : Option Uuid
  parent : Option String
  properties : Properties
  attributes : List Attribute
  children : List Child
  icon : Option String
  target : Option Target
  origin : Option Origin
deriving DecidableEq

namespace Definition

def bare (kind : Kind) (name : String) (origin : Option Origin) : Definition :=
  ⟨kind, name, none, none, [], [], [], none, none, origin⟩

def property? (d : Definition) (key : String) : Option String :=
  d.properties.get? key

def attribute? (d : Definition) (name : String) : Option Attribute :=
  d.attributes.find? (·.name == name)

end Definition

end UiCatalog
