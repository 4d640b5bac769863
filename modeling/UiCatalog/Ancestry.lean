import UiCatalog.Reference
/-!
# Ancestry of types

A type may name a parent type. Its chain is the type itself, its parent, the parent's parent and
so on. Types on a cycle of parents, or below one, have no chain. A cycle is reported once, on the
member with the lowest name; every type below it is reported too.
-/

namespace UiCatalog

namespace Registry

/-- The parent of a type, if it is a registered type. -/
def parentType? (r : Registry) (h : Handle) : Option Handle :=
  ((r.get? h).bind Definition.parent).bind fun parent =>
    (r.find? parent).filter fun p => r.kind? p == some .type

/-- A cycle from its member with the lowest name on. -/
def fromLowest (r : Registry) (cycle : List Handle) : List Handle :=
  match r.lowest? cycle with
  | none => []
  | some m => cycle.dropWhile (· != m) ++ cycle.takeWhile (· != m)

end Registry

/-- The handles on the way up from one, each once, and the one that the way came back to. -/
structure Ascent where
  path : List Handle
  back : Option Handle

/-- The way up from `h` as long as it meets only `fresh` handles. -/
def ascend (next : Handle → Option Handle) (fresh : List Handle) (h : Handle) : Ascent :=
  if h ∈ fresh then
    match next h with
    | none => ⟨[h], none⟩
    | some p =>
      let above := ascend next (fresh.erase h) p
      { above with path := h :: above.path }
  else ⟨[], some h⟩
termination_by fresh.length
decreasing_by
  have := List.length_pos_of_mem ‹h ∈ fresh›
  rw [List.length_erase_of_mem ‹h ∈ fresh›]
  omega

/-- What is known about the ancestors of a type. -/
structure Lineage where
  /-- The declared parent. -/
  parent : Option Reference
  /-- The type and its ancestors, closest first. -/
  chain : Option (List Handle)
  problems : List Problem

namespace Lineage

def parentProblems (r : Registry) (subject parent : String) : List Problem :=
  match (r.find? parent).bind r.kind? with
  | none => [⟨subject, .unresolvedParent parent⟩]
  | some .type => []
  | some found => [⟨subject, .typeMismatch "parentType" parent Kind.type.keyword found⟩]

/-- The problems of the type `h` whose way up ends in a cycle. -/
def cycleProblems (r : Registry) (h : Handle) (subject : String) (cycle : List Handle) :
    List Problem :=
  let cycle := r.fromLowest cycle
  if h ∈ cycle then
    if cycle.head? = some h then [⟨subject, .cyclicInheritance (cycle.map r.name)⟩] else []
  else [⟨subject, .inheritsCycle (cycle.map r.name)⟩]

def ofType (r : Registry) (h : Handle) (d : Definition) : Lineage :=
  let ascent := ascend r.parentType? r.handles h
  let parentProblems := (d.parent.map (parentProblems r d.name)).getD []
  let parent := d.parent.map fun name => ⟨name, r.parentType? h⟩
  match ascent.back with
  | none => ⟨parent, some ascent.path, parentProblems⟩
  | some m =>
    let cycle := ascent.path.dropWhile (· != m)
    ⟨parent, none, parentProblems ++ cycleProblems r h d.name cycle⟩

end Lineage

/-- The lineage of each type of a registry; other definitions have none. -/
structure Ancestry where
  lineages : List (Option Lineage)

namespace Ancestry

def ofRegistry (r : Registry) : Ancestry :=
  ⟨r.definitions.zipIdx.map fun (d, h) =>
    if d.kind = .type then some (Lineage.ofType r h d) else none⟩

def lineage? (a : Ancestry) (h : Handle) : Option Lineage :=
  (a.lineages[h]?).join

def parent? (a : Ancestry) (h : Handle) : Option Reference :=
  (a.lineage? h).bind Lineage.parent

def chain? (a : Ancestry) (h : Handle) : Option (List Handle) :=
  (a.lineage? h).bind Lineage.chain

def problems (a : Ancestry) : List (Handle × Problem) :=
  a.lineages.zipIdx.flatMap fun (lineage, h) =>
    ((lineage.map Lineage.problems).getD []).map (h, ·)

end Ancestry

end UiCatalog
