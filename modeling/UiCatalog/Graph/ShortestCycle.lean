import UiCatalog.Graph.Basic
/-!
# Shortest cycles

A breadth-first search from a node, with the way to each node it reaches, meets a link back to the
start on a shortest cycle.
-/

namespace UiCatalog.Graph

/-- The links to nodes that are still `fresh`, each once and in order, and the nodes that stay so.
-/
def reach : List Nat → List Nat → List Nat × List Nat
  | [], fresh => ([], fresh)
  | w :: links, fresh =>
    if w ∈ fresh then
      let later := reach links (fresh.erase w)
      (w :: later.1, later.2)
    else reach links fresh

private theorem length_reach (links fresh : List Nat) :
    (reach links fresh).1.length + (reach links fresh).2.length = fresh.length := by
  fun_induction reach links fresh with
  | case1 => simp
  | case2 w links fresh h later ih =>
    have hpos := List.length_pos_of_mem h
    rw [List.length_erase_of_mem h] at ih
    simp only [later, List.length_cons]
    omega
  | case3 _ _ _ _ ih => exact ih

/-- The first way in the queue from which a link closes to `start`, from the start on. Ways are kept
from their last node back to the start; only `fresh` nodes are gone on to. -/
def closing (g : Graph) (start : Nat) (fresh : List Nat) (queue : List (List Nat)) :
    Option (List Nat) :=
  match queue with
  | [] => none
  | [] :: queue => closing g start fresh queue
  | (v :: back) :: queue =>
    if start ∈ g.targets v then some (v :: back).reverse
    else
      let reached := reach (g.targets v) fresh
      closing g start reached.2 (queue ++ reached.1.map (· :: v :: back))
termination_by fresh.length + queue.length
decreasing_by
  · simp
  · have := length_reach (g.targets v) fresh
    simp only [List.length_append, List.length_map, List.length_cons]
    omega

def shortestCycle (g : Graph) (members : List Nat) (start : Nat) : List Nat :=
  (closing g start (members.erase start) [[start]]).getD members

end UiCatalog.Graph
