import UiCatalog.Definition
import UiCatalog.Problem
/-!
# The registry

All definitions share one name space and one space of UUIDs. A definition whose name or UUID is
taken is not registered; the earlier one stands. Handles number the registered definitions in
order.
-/

namespace UiCatalog

/-- The number of a registered definition, from zero. -/
abbrev Handle := Nat

def Handle.label (h : Handle) : String :=
  s!"d{h}"

structure Registry where
  definitions : List Definition

namespace Registry

def empty : Registry :=
  ⟨[]⟩

def size (r : Registry) : Nat :=
  r.definitions.length

def handles (r : Registry) : List Handle :=
  List.range r.size

def get? (r : Registry) (h : Handle) : Option Definition :=
  r.definitions[h]?

def find? (r : Registry) (name : String) : Option Handle :=
  r.definitions.findIdx? (·.name == name)

def findUuid? (r : Registry) (uuid : Uuid) : Option Handle :=
  r.definitions.findIdx? (·.uuid == some uuid)

def kind? (r : Registry) (h : Handle) : Option Kind :=
  (r.get? h).map Definition.kind

/-- The name of a registered definition, or nothing for other handles. -/
def name (r : Registry) (h : Handle) : String :=
  ((r.get? h).map Definition.name).getD ""

def ofKind (r : Registry) (kind : Kind) : List Handle :=
  r.handles.filter fun h => r.kind? h == some kind

def lowest? (r : Registry) : List Handle → Option Handle
  | [] => none
  | h :: hs =>
    match lowest? r hs with
    | none => some h
    | some m => if r.name m < r.name h then some m else some h

/-- Why a definition cannot be registered: its name is taken, or else its UUID. -/
def conflict? (r : Registry) (d : Definition) : Option Problem :=
  match r.definitions.find? (·.name == d.name) with
  | some existing => some ⟨d.name, .duplicateName existing.kind⟩
  | none =>
    match d.uuid with
    | none => none
    | some uuid =>
      (r.definitions.find? (·.uuid == some uuid)).map fun owner =>
        ⟨d.name, .duplicateUuid uuid owner.name⟩

/-- The registry with one more definition and its handle, or the conflict that keeps it out. -/
def register (r : Registry) (d : Definition) : Except Problem (Registry × Handle) :=
  match r.conflict? d with
  | some problem => .error problem
  | none => .ok (⟨r.definitions ++ [d]⟩, r.size)

end Registry

end UiCatalog
