import UiCatalog.Graph.Components
import UiCatalog.Graph.ShortestCycle
import UiCatalog.Graph.Unfolding
import UiCatalog.Registry
/-!
# Navigation

Children link commands and menus into a graph. What lies on a cycle of children is never shown. What
is shown hangs below the roots: commands and menus that are children of nothing that is shown.
-/

namespace UiCatalog

/-- A component of the graph that contains a cycle. -/
structure MenuCycle where
  /-- A shortest cycle, from the member with the lowest name on. -/
  path : List Handle
  /-- All members in order. -/
  members : List Handle
deriving DecidableEq

namespace MenuCycle

def ofComponent (r : Registry) (g : Graph) (members : List Handle) : MenuCycle :=
  match r.lowest? members with
  | some start => ⟨g.shortestCycle members start, members⟩
  | none => ⟨members, members⟩

def ofGraph (r : Registry) (g : Graph) : List MenuCycle :=
  g.cyclicComponents.map (ofComponent r g)

/-- A cycle as a problem of the first entity on its path. -/
def problem? (r : Registry) (c : MenuCycle) : Option (Handle × Problem) :=
  c.path.head?.map fun first => (first, ⟨r.name first, .cyclicMenuGraph (c.path.map r.name)⟩)

end MenuCycle

structure Navigation where
  graph : Graph
  cyclic : List Handle
  roots : List Handle

namespace Navigation

def empty : Navigation :=
  ⟨⟨[]⟩, [], []⟩

/-- The commands and menus that are neither cyclic nor children of an entity that is not. -/
def rootsOf (r : Registry) (g : Graph) (cyclic : List Handle) : List Handle :=
  let referenced := (g.nodes.filter (· ∉ cyclic)).flatMap g.targets
  r.handles.filter fun h =>
    (r.kind? h).any Kind.isNavigable && h ∉ cyclic && h ∉ referenced

def ofCycles (r : Registry) (g : Graph) (cycles : List MenuCycle) : Navigation :=
  let cyclic := cycles.flatMap MenuCycle.members
  ⟨g, cyclic, rootsOf r g cyclic⟩

def isCyclic (n : Navigation) (h : Handle) : Bool :=
  h ∈ n.cyclic

def shownChildren (n : Navigation) (h : Handle) : List Handle :=
  (n.graph.targets h).filter fun child => !n.isCyclic child

/-- The tree below an entity; entities on cycles have none. -/
def tree? (n : Navigation) (h : Handle) : Option (Array Graph.TreeEntry) :=
  if n.isCyclic h ∨ n.graph.size ≤ h then none
  else some (Graph.unfold n.shownChildren n.graph.size h)

def forest (n : Navigation) : List (Array Graph.TreeEntry) :=
  n.roots.filterMap n.tree?

end Navigation

end UiCatalog
