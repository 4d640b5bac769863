import UiCatalog.Catalog
import UiCatalog.Definition.OfBlock
import UiCatalog.Diagnostic
/-!
# Resolution

Blocks are turned into definitions and registered in order; then everything that one definition
says about others is resolved at once, so the order of definitions does not matter for it.
Resolution never fails: a problem becomes a diagnostic, and what could be resolved is in the
catalog.
-/

namespace UiCatalog

structure Loaded where
  catalog : Catalog
  diagnostics : List Diagnostic

namespace Loaded

def empty : Loaded :=
  ⟨Catalog.empty, []⟩

def hasErrors (l : Loaded) : Bool :=
  l.diagnostics.any Diagnostic.isError

def isClean (l : Loaded) : Bool :=
  l.diagnostics.isEmpty

end Loaded

/-- A registry that is being filled, and what was found wrong on the way. -/
structure Intake where
  registry : Registry
  log : Log

namespace Intake

/-- The intake after one more block: its misused statements are reported, then a conflict. -/
def add (separator : Char) (i : Intake) (b : Block) : Intake :=
  let (d, misuses) := Definition.ofBlock separator b
  let log := i.log.append <| misuses.map fun misuse =>
    Diagnostic.ofProblem ⟨d.name, .invalidStatement misuse.message⟩ d.origin
  match i.registry.register d with
  | .ok (registry, _) => ⟨registry, log⟩
  | .error problem => ⟨i.registry, log.report problem d.origin⟩

def ofBlocks (log : Log) (separator : Char) (blocks : List Block) : Intake :=
  blocks.foldl (add separator) ⟨Registry.empty, log⟩

end Intake

namespace Registry

def diagnose (r : Registry) (problems : List (Handle × Problem)) : List Diagnostic :=
  problems.map fun (h, problem) => Diagnostic.ofProblem problem ((r.get? h).bind Definition.origin)

def links (r : Registry) : List Links :=
  r.definitions.map (Links.ofDefinition r)

def linkProblems (r : Registry) (o : Options) : List (Handle × Problem) :=
  r.definitions.zipIdx.flatMap fun (d, h) => (Links.problems r o d).map (h, ·)

def effective (r : Registry) (a : Ancestry) : List (Option Effective) :=
  (Effective.ofAncestry r a).map (·.map Prod.fst)

def effectiveProblems (r : Registry) (a : Ancestry) : List (Handle × Problem) :=
  (Effective.ofAncestry r a).zipIdx.flatMap fun (found, h) =>
    ((found.map Prod.snd).getD []).map (h, ·)

def menuGraph (links : List Links) : Graph :=
  ⟨links.map Links.childHandles⟩

end Registry

/-- The entities of a registry and the problems between them. -/
def Catalog.ofRegistry (o : Options) (r : Registry) : Catalog × List (Handle × Problem) :=
  let ancestry := Ancestry.ofRegistry r
  let effective := r.effective ancestry
  let links := r.links
  let graph := Registry.menuGraph links
  let cycles := MenuCycle.ofGraph r graph
  let navigation := Navigation.ofCycles r graph cycles
  let entities := (r.definitions.zip effective).zipIdx.map fun ((d, effective), h) =>
    Entity.ofDefinition h d ancestry effective links navigation
  (⟨r, entities, navigation⟩,
    ancestry.problems ++ r.effectiveProblems ancestry ++ r.linkProblems o ++
      cycles.filterMap (MenuCycle.problem? r))

/-- Resolution of blocks after other things have been reported already. -/
def resolveAfter (log : Log) (o : Options) (blocks : List Block) : Loaded :=
  let intake := Intake.ofBlocks log o.separator blocks
  let (catalog, problems) := Catalog.ofRegistry o intake.registry
  ⟨catalog, (intake.log.append (intake.registry.diagnose problems)).close⟩

def resolve (o : Options) (blocks : List Block) : Loaded :=
  resolveAfter Log.empty o blocks

end UiCatalog
