/-!
# Directed graphs

The nodes of a graph are the numbers below its size. Each has a list of links to nodes, in which a
node may occur more than once.
-/

namespace UiCatalog

/-- The links of each node. -/
structure Graph where
  links : List (List Nat)

namespace Graph

def size (g : Graph) : Nat :=
  g.links.length

def nodes (g : Graph) : List Nat :=
  List.range g.size

def targets (g : Graph) (v : Nat) : List Nat :=
  (g.links[v]?).getD []

/-- The sum of numbers, in which the measures of the searches are given. -/
def total : List Nat → Nat
  | [] => 0
  | n :: ns => n + total ns

theorem total_append (ms ns : List Nat) : total (ms ++ ns) = total ms + total ns := by
  induction ms with
  | nil => simp [total]
  | cons m ms ih => simp [total, ih, Nat.add_assoc]

end Graph

end UiCatalog
