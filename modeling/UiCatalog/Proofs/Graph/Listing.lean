import UiCatalog.Proofs.Graph.Unfolding
/-!
# Listings of trees

The tree below a node has the trees below its children as its branches. A listing of it in pre-order
gives each entry the places of its children, and each place but that of the root is the place of one
child.
-/

namespace UiCatalog.Graph

open Relation

/-- A tree of nodes with the branches of each node in order. -/
inductive NodeTree where
  | node (root : Nat) (branches : List NodeTree)

namespace NodeTree

mutual

/-- The number of nodes, each counted as often as it stands in the tree. -/
def size : NodeTree → Nat
  | node _ branches => 1 + sizes branches

def sizes : List NodeTree → Nat
  | [] => 0
  | t :: ts => t.size + sizes ts

end

def root : NodeTree → Nat
  | node root _ => root

/-- The places of the roots of trees that are listed one after the other from a place on. -/
def places (place : Nat) : List NodeTree → List Nat
  | [] => []
  | t :: ts => place :: places (place + t.size) ts

mutual

/-- The tree in pre-order, its root at the given depth and place. -/
def entries (depth place : Nat) : NodeTree → List TreeEntry
  | node root branches =>
    ⟨root, depth, places (place + 1) branches⟩ :: branchEntries (depth + 1) (place + 1) branches

def branchEntries (depth place : Nat) : List NodeTree → List TreeEntry
  | [] => []
  | t :: ts => t.entries depth place ++ branchEntries depth (place + t.size) ts

end

mutual

theorem length_entries (depth place : Nat) (t : NodeTree) :
    (t.entries depth place).length = t.size := by
  match t with
  | node root branches =>
    rw [entries, size, List.length_cons, length_branchEntries, Nat.add_comm]

theorem length_branchEntries (depth place : Nat) (ts : List NodeTree) :
    (branchEntries depth place ts).length = sizes ts := by
  match ts with
  | [] => rfl
  | t :: ts =>
    rw [branchEntries, sizes, List.length_append, length_entries, length_branchEntries]

end

mutual

/-- In a tree each place but that of the root is the place of a child, once. -/
private theorem children_entries_perm (depth place : Nat) (t : NodeTree) :
    (place :: (t.entries depth place).flatMap TreeEntry.children).Perm
      (List.range' place t.size) := by
  match t with
  | node root branches =>
    rw [entries, size, List.flatMap_cons, Nat.add_comm 1, List.range'_succ]
    exact (children_branchEntries_perm (depth + 1) (place + 1) branches).cons place

theorem children_branchEntries_perm (depth place : Nat) (ts : List NodeTree) :
    (places place ts ++ (branchEntries depth place ts).flatMap TreeEntry.children).Perm
      (List.range' place (sizes ts)) := by
  match ts with
  | [] => exact List.Perm.refl _
  | t :: ts =>
    have hfirst := children_entries_perm depth place t
    have hlater := children_branchEntries_perm depth (place + t.size) ts
    have hboth := hfirst.append hlater
    have hrange : List.range' place t.size ++ List.range' (place + t.size) (sizes ts) =
        List.range' place (t.size + sizes ts) := by
      rw [← List.range'_append, Nat.one_mul]
    rw [hrange] at hboth
    rw [places, branchEntries, sizes, List.flatMap_append]
    refine List.Perm.trans ?_ hboth
    rw [List.cons_append, List.cons_append]
    refine List.Perm.cons place ?_
    simp only [← List.append_assoc]
    exact List.perm_append_comm.append_right _

end

end NodeTree

/-- Whether the trees of all nodes branch as the nodes do. -/
def IsUnfolding (children : Nat → List Nat) (tree : Nat → NodeTree) : Prop :=
  ∀ v, tree v = .node v ((children v).map tree)

/-- Where no node stands below itself, there is exactly one way to unfold all nodes. -/
theorem existsUnique_isUnfolding {children : Nat → List Nat}
    (hwf : WellFounded fun c v => Below children v c) : ∃! tree, IsUnfolding children tree := by
  let step (v : Nat) (tree : ∀ c, Below children v c → NodeTree) : NodeTree :=
    .node v ((children v).attach.map fun c => tree c.1 c.2)
  have hfix (v : Nat) : hwf.fix step v = .node v ((children v).map (hwf.fix step)) :=
    (hwf.fix_eq step v).trans (congrArg (NodeTree.node v) List.attach_map_val)
  refine ⟨hwf.fix step, hfix, fun tree htree => funext fun v => ?_⟩
  induction v using hwf.induction with
  | h v ih =>
    have hbranches : (children v).map tree = (children v).map (hwf.fix step) :=
      List.map_congr_left ih
    rw [htree v, hfix v, hbranches]

def StandsAt (listing : List TreeEntry) (place : Nat) (part : List TreeEntry) : Prop :=
  part <+: listing.drop place

private theorem StandsAt.cons {listing part : List TreeEntry} {place : Nat} {e : TreeEntry}
    (h : StandsAt listing place (e :: part)) :
    listing[place]? = some e ∧ StandsAt listing (place + 1) part := by
  obtain ⟨later, hlater⟩ := h
  constructor
  · rw [← List.head?_drop, ← hlater]
    rfl
  · exact ⟨later, by rw [← List.drop_drop, ← hlater]; rfl⟩

private theorem StandsAt.append {listing part part' : List TreeEntry} {place : Nat}
    (h : StandsAt listing place (part ++ part')) :
    StandsAt listing place part ∧ StandsAt listing (place + part.length) part' := by
  obtain ⟨later, hlater⟩ := h
  rw [List.append_assoc] at hlater
  exact ⟨⟨_, hlater⟩, later, by rw [← List.drop_drop, ← hlater, List.drop_left]⟩

namespace NodeTree

private theorem marks_places {listing : List TreeEntry} {depth place : Nat} {ts : List NodeTree}
    (h : StandsAt listing place (branchEntries depth place ts)) :
    (places place ts).map (fun place => listing[place]?.map TreeEntry.mark) =
      ts.map fun t => some (t.root, depth) := by
  induction ts generalizing place with
  | nil => rfl
  | cons t ts ih =>
    obtain ⟨hfirst, hlater⟩ := h.append
    rw [length_entries] at hlater
    obtain ⟨root, branches⟩ := t
    rw [places, List.map_cons, List.map_cons, ih hlater, hfirst.cons.1]
    rfl

section

variable {children : Nat → List Nat} {tree : Nat → NodeTree} {listing : List TreeEntry}

mutual

private theorem marks_children (htree : IsUnfolding children tree) {depth place v : Nat}
    {t : NodeTree} (ht : tree v = t) (h : StandsAt listing place (t.entries depth place)) :
    ∀ e ∈ t.entries depth place, e.children.map (fun place => listing[place]?.map TreeEntry.mark) =
      (children e.node).map fun c => some (c, e.depth + 1) := by
  match t with
  | node root branches =>
    obtain ⟨rfl, hbranches⟩ := NodeTree.node.inj ((htree v).symm.trans ht)
    obtain ⟨-, hbelow⟩ := h.cons
    have hroot (c : Nat) : (tree c).root = c := by rw [htree c, root]
    rw [entries, List.forall_mem_cons]
    refine ⟨?_, marks_children_branches htree hbranches hbelow⟩
    rw [marks_places hbelow, ← hbranches, List.map_map]
    simp only [Function.comp_def, hroot]

theorem marks_children_branches (htree : IsUnfolding children tree) {depth place : Nat}
    {vs : List Nat} {ts : List NodeTree} (hts : vs.map tree = ts)
    (h : StandsAt listing place (branchEntries depth place ts)) :
    ∀ e ∈ branchEntries depth place ts,
      e.children.map (fun place => listing[place]?.map TreeEntry.mark) =
        (children e.node).map fun c => some (c, e.depth + 1) := by
  match ts with
  | [] => simp [branchEntries]
  | t :: ts =>
    obtain ⟨v, vs, rfl, hv, hvs⟩ := List.map_eq_cons_iff.mp hts
    obtain ⟨hfirst, hlater⟩ := h.append
    rw [length_entries] at hlater
    rw [branchEntries, List.forall_mem_append]
    exact ⟨marks_children htree hv hfirst, marks_children_branches htree hvs hlater⟩

end

end

end NodeTree

def IsChildPlace (listing : List TreeEntry) (place child : Nat) : Prop :=
  ∃ e, listing[place]? = some e ∧ child ∈ e.children

/-- Whether a way of a number of steps leads down from one place to another. -/
def IsWayDown (listing : List TreeEntry) (steps place low : Nat) : Prop :=
  ∃ way : List Nat, way.length = steps ∧ (place :: way).IsChain (IsChildPlace listing) ∧
    (place :: way).getLast? = some low

private theorem IsWayDown.head {listing : List TreeEntry} {steps place child low : Nat}
    (h : IsWayDown listing steps child low) (hchild : IsChildPlace listing place child) :
    IsWayDown listing (steps + 1) place low := by
  obtain ⟨way, hlength, hway, hlast⟩ := h
  exact ⟨child :: way, by rw [List.length_cons, hlength],
    List.isChain_cons_cons.mpr ⟨hchild, hway⟩, by rw [List.getLast?_cons_cons, hlast]⟩

namespace NodeTree

variable {listing : List TreeEntry}

mutual

private theorem exists_way {depth place i : Nat} {e : TreeEntry} (t : NodeTree)
    (h : StandsAt listing place (t.entries depth place))
    (he : (t.entries depth place)[i]? = some e) :
    ∃ steps, depth + steps = e.depth ∧ IsWayDown listing steps place (place + i) := by
  match t with
  | node root branches =>
    obtain ⟨hroot, hbelow⟩ := h.cons
    cases i with
    | zero =>
      obtain rfl : _ = e := Option.some.inj he
      exact ⟨0, rfl, [], rfl, List.isChain_singleton _, rfl⟩
    | succ i =>
      obtain ⟨q, hq, steps, hdepth, hway⟩ := exists_way_branches branches hbelow he
      rw [Nat.add_assoc, Nat.add_comm 1] at hway
      exact ⟨steps + 1, by omega, hway.head ⟨_, hroot, hq⟩⟩

theorem exists_way_branches {depth place i : Nat} {e : TreeEntry} (ts : List NodeTree)
    (h : StandsAt listing place (branchEntries depth place ts))
    (he : (branchEntries depth place ts)[i]? = some e) : ∃ q ∈ places place ts,
      ∃ steps, depth + steps = e.depth ∧ IsWayDown listing steps q (place + i) := by
  match ts with
  | [] => simp [branchEntries] at he
  | t :: ts =>
    obtain ⟨hfirst, hlater⟩ := h.append
    rw [length_entries] at hlater
    rw [branchEntries, List.getElem?_append, length_entries] at he
    split at he
    · exact ⟨place, List.mem_cons_self, exists_way t hfirst he⟩
    · obtain ⟨q, hq, steps, hdepth, hway⟩ := exists_way_branches ts hlater he
      rw [Nat.add_assoc, Nat.add_sub_cancel' (by omega)] at hway
      exact ⟨q, List.mem_cons_of_mem place hq, steps, hdepth, hway⟩

end

end NodeTree

/-- A listing of the tree below a root in pre-order, with the places of the children of each entry.
-/
structure Unfolds (children : Nat → List Nat) (root : Nat) (listing : List TreeEntry) : Prop where
  root : listing[0]?.map TreeEntry.mark = some (root, 0)
  /-- The places of the children of an entry are those of the children of its node, in order, one
  level further down. -/
  children : ∀ e ∈ listing, e.children.map (fun place => listing[place]?.map TreeEntry.mark) =
    (children e.node).map fun c => some (c, e.depth + 1)
  /-- Each place but that of the root is the place of a child, once. -/
  once : (listing.flatMap TreeEntry.children).Perm (List.range' 1 (listing.length - 1))
  /-- The depth of an entry is its distance from the root. -/
  distance : ∀ place e, listing[place]? = some e → IsWayDown listing e.depth 0 place

theorem IsUnfolding.unfolds {children : Nat → List Nat} {tree : Nat → NodeTree}
    (h : IsUnfolding children tree) (v : Nat) : Unfolds children v ((tree v).entries 0 0) := by
  have hstands : StandsAt ((tree v).entries 0 0) 0 ((tree v).entries 0 0) := List.prefix_refl _
  refine ⟨?_, NodeTree.marks_children h rfl hstands, ?_, fun place e he => ?_⟩
  · rw [h v]
    rfl
  · have hperm := NodeTree.children_entries_perm 0 0 (tree v)
    rw [NodeTree.length_entries]
    rw [h v, NodeTree.size, Nat.add_comm 1, List.range'_succ] at hperm
    simpa [h v, NodeTree.size] using hperm.cons_inv
  · obtain ⟨steps, hdepth, hway⟩ := NodeTree.exists_way (tree v) hstands he
    rw [Nat.zero_add] at hdepth hway
    exact hdepth ▸ hway

end UiCatalog.Graph
