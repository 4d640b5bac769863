import UiCatalog.Block
import UiCatalog.Definition
import UiCatalog.Text.Blank
import UiCatalog.Text.Split
/-!
# Definitions of blocks

The statements of a block are applied in order. What may be said once keeps its first value, a
property keeps its last, and children and attributes add up. A statement that cannot be applied is
left out and reported. The target of a command or menu is read off the final properties.
-/

namespace UiCatalog

/-- Why a statement was not applied. -/
inductive Misuse where
  | notAllowed (keyword : String) (kind : Kind)
  | repeated (keyword : String)
  | repeatedField (name keyword : String)
  | invalidUuid (text : String) (reason : Uuid.Fault)
deriving DecidableEq

def Misuse.message : Misuse → String
  | .notAllowed keyword kind => s!"'{keyword}' is not allowed in a {kind.keyword} definition"
  | .repeated keyword => s!"'{keyword}' is declared more than once; keeping the first value"
  | .repeatedField name keyword =>
    s!"attribute '{name}': '{keyword}' is declared more than once; keeping the first value"
  | .invalidUuid text reason => s!"invalid UUID '{text}': {reason.message}"

def Statement.allowedIn (kind : Kind) : Statement → Bool
  | .setUuid _ | .addProperty _ _ | .addIcon _ => true
  | .setParent _ | .addAttribute _ _ => kind == .type
  | .addTargetTable _ | .addTargetForm _ | .addTargetMenu _ | .addChild _ _ => kind.isNavigable

namespace Attribute

def bare (name : String) : Attribute :=
  ⟨name, none, none, none, none⟩

def has (a : Attribute) : Field → Bool
  | .type => a.type.isSome
  | .sqlTable => a.sqlTable.isSome
  | .sqlColumn => a.sqlColumn.isSome
  | .typeLink => a.typeLink.isSome

def set (a : Attribute) (s : FieldStatement) : Attribute :=
  match s.field with
  | .type => { a with type := some (AttributeType.ofTag s.value) }
  | .sqlTable => { a with sqlTable := some s.value }
  | .sqlColumn => { a with sqlColumn := some s.value }
  | .typeLink => { a with typeLink := some s.value }

/-- An attribute after a field statement: a field that has been set keeps its value. -/
def apply (a : Attribute) (s : FieldStatement) : Attribute × List Misuse :=
  if a.has s.field then (a, [.repeatedField a.name s.field.keyword]) else (a.set s, [])

def applyAll : Attribute → List FieldStatement → Attribute × List Misuse
  | a, [] => (a, [])
  | a, s :: later =>
    let first := a.apply s
    let last := first.1.applyAll later
    (last.1, first.2 ++ last.2)

def ofBody (name : String) (body : List FieldStatement) : Attribute × List Misuse :=
  (bare name).applyAll body

end Attribute

/-- The names in a separated list, without blanks around them and without empty ones. -/
def Target.separatedNames (separator : Char) (text : String) : List String :=
  ((Text.splitAt separator text.toList).map (Text.trim ∘ String.ofList)).filter (· ≠ "")

def Target.withProperties (t : Target) (separator : Char) (ps : Properties) : Target :=
  { t with
    area := ps.get? "Target"
    mode := ps.get? "TargetMode"
    expand := ((ps.get? "TargetExpand").map Text.trim).filter (· ≠ "")
    queryTypes := ((ps.get? "TargetQueryTypes").map (separatedNames separator)).getD [] }

namespace Definition

/-- A definition while its statements are applied, with the declared part of its target. -/
structure Draft where
  definition : Definition
  target : Target

/-- A value that may be set once, after another attempt to set it. -/
def setOnce {α : Type} (keyword : String) (old : Option α) (new : α) : Option α × List Misuse :=
  match old with
  | none => (some new, [])
  | some first => (some first, [.repeated keyword])

def Draft.apply (d : Draft) (s : Statement) : Draft × List Misuse :=
  match s with
  | .setUuid text =>
    match Uuid.parse (Text.trim text) with
    | .ok uuid =>
      let (uuid, misuses) := setOnce s.keyword d.definition.uuid uuid
      ({ d with definition := { d.definition with uuid := uuid } }, misuses)
    | .error reason => (d, [.invalidUuid text reason])
  | .setParent name =>
    let (parent, misuses) := setOnce s.keyword d.definition.parent name
    ({ d with definition := { d.definition with parent := parent } }, misuses)
  | .addProperty key value =>
    let properties := d.definition.properties.set key value
    ({ d with definition := { d.definition with properties := properties } }, [])
  | .addAttribute name body =>
    let (attr, misuses) := Attribute.ofBody name body
    let attributes := d.definition.attributes ++ [attr]
    ({ d with definition := { d.definition with attributes := attributes } }, misuses)
  | .addIcon icon =>
    let (icon, misuses) := setOnce s.keyword d.definition.icon icon
    ({ d with definition := { d.definition with icon := icon } }, misuses)
  | .addTargetTable name =>
    let (table, misuses) := setOnce s.keyword d.target.table name
    ({ d with target := { d.target with table := table } }, misuses)
  | .addTargetForm name =>
    let (form, misuses) := setOnce s.keyword d.target.form name
    ({ d with target := { d.target with form := form } }, misuses)
  | .addTargetMenu name =>
    let (menu, misuses) := setOnce s.keyword d.target.menu name
    ({ d with target := { d.target with menu := menu } }, misuses)
  | .addChild kind name =>
    let children := d.definition.children ++ [⟨kind, name⟩]
    ({ d with definition := { d.definition with children := children } }, [])

def Draft.applyAll : Draft → List Statement → Draft × List Misuse
  | d, [] => (d, [])
  | d, s :: later =>
    if s.allowedIn d.definition.kind then
      let first := d.apply s
      let last := first.1.applyAll later
      (last.1, first.2 ++ last.2)
    else
      let last := d.applyAll later
      (last.1, .notAllowed s.keyword d.definition.kind :: last.2)

/-- The definition of a draft. Only commands and menus have a target, and only if it is not empty.
-/
def Draft.finish (d : Draft) (separator : Char) : Definition :=
  if d.definition.kind.isNavigable then
    let target := Target.withProperties d.target separator d.definition.properties
    { d.definition with target := if target = Target.empty then none else some target }
  else d.definition

/-- The definition that a block declares, and the statements that it could not take in. -/
def ofBlock (separator : Char) (b : Block) : Definition × List Misuse :=
  let draft := Draft.applyAll ⟨bare b.kind b.name b.origin, Target.empty⟩ b.statements
  (draft.1.finish separator, draft.2)

end Definition

end UiCatalog
