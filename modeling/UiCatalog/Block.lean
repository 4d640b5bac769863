import UiCatalog.Kind
import UiCatalog.Text.Position
/-!
# Blocks

A definition file is a sequence of blocks. A block has a kind, a name and statements; the body of an
attribute has field statements. Blocks are what was written: nothing is checked or looked up yet.
-/

namespace UiCatalog

/-- The fields of an attribute that its body can set. -/
inductive Field where
  | type
  | sqlTable
  | sqlColumn
  | typeLink
deriving DecidableEq

namespace Field

def all : List Field :=
  [.type, .sqlTable, .sqlColumn, .typeLink]

def keyword : Field → String
  | .type => "setAttributeType"
  | .sqlTable => "setSQLTable"
  | .sqlColumn => "setSQLColumn"
  | .typeLink => "setTypeLink"

def ofKeyword? (word : String) : Option Field :=
  all.find? (·.keyword == word)

end Field

structure FieldStatement where
  field : Field
  value : String
deriving DecidableEq

inductive Statement where
  | setUuid (text : String)
  | setParent (name : String)
  | addProperty (key value : String)
  | addAttribute (name : String) (body : List FieldStatement)
  | addIcon (icon : String)
  | addTargetTable (name : String)
  | addTargetForm (name : String)
  | addTargetMenu (name : String)
  | addChild (kind : ChildKind) (name : String)
deriving DecidableEq

def Statement.keyword : Statement → String
  | .setUuid _ => "setUUID"
  | .setParent _ => "setParentType"
  | .addProperty _ _ => "addProperty"
  | .addAttribute _ _ => "addAttribute"
  | .addIcon _ => "addIcon"
  | .addTargetTable _ => "addTargetTable"
  | .addTargetForm _ => "addTargetForm"
  | .addTargetMenu _ => "addTargetMenu"
  | .addChild _ _ => "addChild"

/-- A block of a definition file, and where it stands if it was read from a text. -/
structure Block where
  kind : Kind
  name : String
  statements : List Statement
  origin : Option Origin
deriving DecidableEq

end UiCatalog
