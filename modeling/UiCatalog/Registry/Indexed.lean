import UiCatalog.Registry
/-!
# Indexed registries

A registry is filled in a first phase and only read in a second one. Names and UUIDs are indexed
while it is filled, and a definition is checked against both indexes before anything changes; the
kinds are indexed when it is closed.
-/

namespace UiCatalog

/-- A registry that takes more definitions, with the handles of all names and UUIDs. -/
structure OpenRegistry extends Registry where
  byName : List (String × Handle)
  byUuid : List (Uuid × Handle)

namespace OpenRegistry

def empty : OpenRegistry :=
  ⟨Registry.empty, [], []⟩

def contains (r : OpenRegistry) (name : String) : Bool :=
  (r.byName.lookup name).isSome

/-- The definition that a name index or a UUID index points at. -/
def owner? {α : Type} [BEq α] (r : OpenRegistry) (index : List (α × Handle)) (key : α) :
    Option Definition :=
  (index.lookup key).bind r.get?

def insert (r : OpenRegistry) (d : Definition) : OpenRegistry where
  definitions := r.definitions ++ [d]
  byName := (d.name, r.size) :: r.byName
  byUuid :=
    match d.uuid with
    | some uuid => (uuid, r.size) :: r.byUuid
    | none => r.byUuid

/-- The registry after a definition was offered, with the handle of the definition or the reason why
it is kept out: its name is taken, or else its UUID. -/
def register (r : OpenRegistry) (d : Definition) : OpenRegistry × Except Problem Handle :=
  match r.owner? r.byName d.name with
  | some existing => (r, .error ⟨d.name, .duplicateName existing.kind⟩)
  | none =>
    match d.uuid with
    | none => (r.insert d, .ok r.size)
    | some uuid =>
      match r.owner? r.byUuid uuid with
      | some owner => (r, .error ⟨d.name, .duplicateUuid uuid owner.name⟩)
      | none => (r.insert d, .ok r.size)

def registerAll (r : OpenRegistry) :
    List Definition → OpenRegistry × List (Except Problem Handle)
  | [] => (r, [])
  | d :: ds =>
    let (r, answer) := r.register d
    let (r, answers) := registerAll r ds
    (r, answer :: answers)

end OpenRegistry

/-- A registry that takes no more definitions, with the handles of all names, UUIDs and kinds. -/
structure ClosedRegistry extends Registry where
  byName : List (String × Handle)
  byUuid : List (Uuid × Handle)
  byKind : List (Kind × List Handle)

def indexKind (kind : Kind) (h : Handle) : List (Kind × List Handle) → List (Kind × List Handle)
  | [] => [(kind, [h])]
  | (k, hs) :: index =>
    if k = kind then (k, hs ++ [h]) :: index else (k, hs) :: indexKind kind h index

/-- The registry without its first phase: its kinds are indexed in the order of the handles. -/
def OpenRegistry.close (r : OpenRegistry) : ClosedRegistry where
  definitions := r.definitions
  byName := r.byName
  byUuid := r.byUuid
  byKind := r.definitions.zipIdx.foldl (fun index (d, h) => indexKind d.kind h index) []

namespace ClosedRegistry

def lookup (r : ClosedRegistry) (name : String) : Option Handle :=
  r.byName.lookup name

def lookupDefinition (r : ClosedRegistry) (name : String) : Option Definition :=
  (r.lookup name).bind r.get?

def lookupUuid (r : ClosedRegistry) (uuid : Uuid) : Option Handle :=
  r.byUuid.lookup uuid

def ofKind (r : ClosedRegistry) (kind : Kind) : List Handle :=
  (r.byKind.lookup kind).getD []

end ClosedRegistry

end UiCatalog
