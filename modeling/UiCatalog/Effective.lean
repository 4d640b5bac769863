import UiCatalog.Ancestry
/-!
# Effective properties and attributes

A type has its own properties and attributes and those of its ancestors, the root's first. Of a
property the closest value counts. Of two attributes with one name the one nearer to the root
stands, and the other is a problem of the type that declares it.
-/

namespace UiCatalog

/-- A declared attribute and where it is declared: its owner and its place there. -/
structure Declared where
  owner : Handle
  index : Nat
  content : Attribute
deriving DecidableEq

structure Effective where
  properties : Properties
  attributes : List Declared
deriving DecidableEq

namespace Effective

def declared (r : Registry) (owner : Handle) : List Declared :=
  (((r.get? owner).map Definition.attributes).getD []).zipIdx.map fun (content, index) =>
    ⟨owner, index, content⟩

def ownProperties (r : Registry) (owner : Handle) : Properties :=
  ((r.get? owner).map Definition.properties).getD []

/-- Attributes joined to those that stand already: what stands at the end, and each attribute that
does not, with the one of its name that does. -/
def settle (standing : List Declared) :
    List Declared → List Declared × List (Declared × Declared)
  | [] => (standing, [])
  | a :: later =>
    match standing.find? (·.content.name == a.content.name) with
    | some first =>
      let last := settle standing later
      (last.1, (a, first) :: last.2)
    | none => settle (standing ++ [a]) later

/-- The properties and attributes along a chain of ancestors, closest first, and the problems of the
type at its head. -/
def ofChain (r : Registry) (chain : List Handle) : Effective × List Problem :=
  let rootFirst := chain.reverse
  let properties := rootFirst.foldl (fun ps h => Properties.setAll ps (ownProperties r h)) []
  let (attributes, surplus) := settle [] (rootFirst.flatMap (declared r))
  let own := surplus.filter fun (a, _) => chain.head? == some a.owner
  (⟨properties, attributes⟩,
    own.map fun (a, first) =>
      ⟨r.name a.owner, .duplicateAttribute a.content.name (r.name first.owner)⟩)

/-- The effective properties and attributes of each type; without a chain, those of the type
alone. -/
def ofAncestry (r : Registry) (a : Ancestry) : List (Option (Effective × List Problem)) :=
  r.definitions.zipIdx.map fun (d, h) =>
    if d.kind = .type then some (ofChain r ((a.chain? h).getD [h])) else none

end Effective

end UiCatalog
