import UiCatalog.Options
import UiCatalog.Reference
/-!
# Links of a definition

The places where a definition names others are its children, the parts of its target and the type
links of its attributes. Each is linked by itself, in this order, and has at most one problem,
except that a child which is linked may be of the other kind than declared.
-/

namespace UiCatalog

structure ChildLink where
  kind : ChildKind
  reference : Reference
deriving DecidableEq

/-- A path from a type: only its head names a definition. -/
structure ExpandLink where
  raw : String
  head : Reference
  tail : String
deriving DecidableEq

structure TargetLinks where
  area : Option String
  mode : Option String
  queryTypes : List Reference
  expand : Option ExpandLink
  table : Option Reference
  form : Option Reference
  menu : Option Reference
deriving DecidableEq

/-- The links of a definition; the type links are parallel to its attributes. -/
structure Links where
  children : List ChildLink
  target : Option TargetLinks
  typeLinks : List (Option Reference)
deriving DecidableEq

def splitExpand (raw : String) : String × String :=
  let inHead (c : Char) : Bool := c != '\\' && c != '.'
  (String.ofList (raw.toList.takeWhile inHead), String.ofList (raw.toList.dropWhile inHead))

namespace Mention

def child (index : Nat) (c : Child) : Mention :=
  ⟨s!"children[{index}]", c.name, [.command, .menu]⟩

def queryType (index : Nat) (name : String) : Mention :=
  ⟨s!"target.queryTypes[{index}]", name, [.type]⟩

def expand (raw : String) : Mention :=
  ⟨"target.expand", (splitExpand raw).1, [.type]⟩

def table (name : String) : Mention :=
  ⟨"target.table", name, [.table]⟩

def form (name : String) : Mention :=
  ⟨"target.form", name, [.form]⟩

def menu (name : String) : Mention :=
  ⟨"target.menu", name, [.menu]⟩

def typeLink (attr : Attribute) (name : String) : Mention :=
  ⟨s!"attributes.{attr.name}.typeLink", name, [.type]⟩

end Mention

namespace Links

def targetMentions (t : Target) : List Mention :=
  t.queryTypes.zipIdx.map (fun (name, i) => Mention.queryType i name) ++
    (t.expand.map Mention.expand).toList ++ (t.table.map Mention.table).toList ++
    (t.form.map Mention.form).toList ++ (t.menu.map Mention.menu).toList

def ofTarget (r : Registry) (t : Target) : TargetLinks :=
  { area := t.area
    mode := t.mode
    queryTypes := t.queryTypes.zipIdx.map fun (name, i) => (Mention.queryType i name).reference r
    expand := t.expand.map fun raw =>
      ⟨raw, (Mention.expand raw).reference r, (splitExpand raw).2⟩
    table := t.table.map fun name => (Mention.table name).reference r
    form := t.form.map fun name => (Mention.form name).reference r
    menu := t.menu.map fun name => (Mention.menu name).reference r }

def ofDefinition (r : Registry) (d : Definition) : Links :=
  { children := d.children.zipIdx.map fun (c, i) => ⟨c.kind, (Mention.child i c).reference r⟩
    target := d.target.map (ofTarget r)
    typeLinks := d.attributes.map fun a =>
      a.typeLink.map fun name => (Mention.typeLink a name).reference r }

/-- The problems of a child: it does not resolve, or it is of the other kind than declared. -/
def childProblems (r : Registry) (o : Options) (subject : String) (index : Nat) (c : Child) :
    List Problem :=
  let mention := Mention.child index c
  let mismatch := match (mention.target? r).bind r.kind? with
    | some found =>
      if o.checkChildKinds ∧ found ≠ c.kind.kind then
        [⟨subject, .childMismatch mention.field c.name c.kind found⟩]
      else []
    | none => []
  mention.problems r subject ++ mismatch

/-- The problems of an attribute: its type link does not resolve, or it has none and needs one. -/
def attributeProblems (r : Registry) (subject : String) (a : Attribute) : List Problem :=
  match a.typeLink with
  | some name => (Mention.typeLink a name).problems r subject
  | none => if a.isLink then [⟨subject, .missingTypeLink a.name⟩] else []

def problems (r : Registry) (o : Options) (d : Definition) : List Problem :=
  d.children.zipIdx.flatMap (fun (c, i) => childProblems r o d.name i c) ++
    ((d.target.map targetMentions).getD []).flatMap (·.problems r d.name) ++
    d.attributes.flatMap (attributeProblems r d.name)

def childHandles (l : Links) : List Handle :=
  l.children.filterMap (·.reference.target)

end Links

end UiCatalog
