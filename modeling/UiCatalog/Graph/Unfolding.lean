import UiCatalog.Graph.Basic
/-!
# Unfolding a graph into a tree

Below a node stand its children, below them theirs, and a node with several parents stands below
each of them. The tree is listed in pre-order, each entry with its depth and the places of its
children, so that no call goes as deep as the tree.
-/

namespace UiCatalog.Graph

structure TreeEntry where
  node : Nat
  depth : Nat
  /-- The places of the children in the listing, in order. -/
  children : List Nat
deriving DecidableEq

/-- A node that is still to be listed, with its depth and the place of its parent. -/
structure Waiting where
  node : Nat
  depth : Nat
  parent : Option Nat

/-- The number of entries below a node, itself included, if the tree is cut off `height` levels
further down. -/
def treeSize (children : Nat → List Nat) : Nat → Nat → Nat
  | 0, _ => 1
  | height + 1, v => 1 + total ((children v).map (treeSize children height))

/-- The listing after an entry for `w` has been added, also to the children of its parent. -/
def addEntry (listing : Array TreeEntry) (w : Waiting) : Array TreeEntry :=
  let place := listing.size
  let known := match w.parent with
    | some parent =>
      listing.modify parent fun entry => { entry with children := entry.children ++ [place] }
    | none => listing
  known.push ⟨w.node, w.depth, []⟩

def waitingBelow (children : Nat → List Nat) (limit place : Nat) (w : Waiting) : List Waiting :=
  if w.depth < limit then (children w.node).map (⟨·, w.depth + 1, some place⟩) else []

def waitingSize (children : Nat → List Nat) (limit : Nat) (waiting : List Waiting) : Nat :=
  total (waiting.map fun w => treeSize children (limit - w.depth) w.node)

private theorem waitingSize_below_lt (children : Nat → List Nat) (limit place : Nat) (w : Waiting) :
    waitingSize children limit (waitingBelow children limit place w) <
      treeSize children (limit - w.depth) w.node := by
  unfold waitingBelow
  split
  · rename_i h
    obtain ⟨height, hheight⟩ : ∃ height, limit - w.depth = height + 1 :=
      ⟨limit - w.depth - 1, by omega⟩
    have hbelow : limit - (w.depth + 1) = height := by omega
    rw [hheight, treeSize, waitingSize, List.map_map]
    simp only [Function.comp_def, hbelow]
    exact Nat.lt_add_of_pos_left Nat.one_pos
  · cases limit - w.depth <;> simp only [waitingSize, treeSize, List.map_nil, total] <;>
      omega

/-- The listing after all waiting nodes and everything below them, no deeper than `limit`. -/
def unfoldFrom (children : Nat → List Nat) (limit : Nat) (listing : Array TreeEntry)
    (waiting : List Waiting) : Array TreeEntry :=
  match waiting with
  | [] => listing
  | w :: waiting =>
    let below := waitingBelow children limit listing.size w
    unfoldFrom children limit (addEntry listing w) (below ++ waiting)
termination_by waitingSize children limit waiting
decreasing_by
  have := waitingSize_below_lt children limit listing.size w
  simp only [waitingSize, List.map_append, total_append, List.map_cons, total] at this ⊢
  omega

def unfold (children : Nat → List Nat) (limit : Nat) (v : Nat) : Array TreeEntry :=
  unfoldFrom children limit #[] [⟨v, 0, none⟩]

end UiCatalog.Graph
