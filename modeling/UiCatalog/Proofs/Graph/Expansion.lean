import UiCatalog.Proofs.Graph.Listing
/-!
# The loop that lists a tree

Each round of the loop lists one node and lets its children wait in front of all others. So it lists
the tree of a node before it comes to what has waited longer, and after as many rounds as the trees
of all waiting nodes have entries nothing waits any more. Where no node stands below itself the loop
comes to an end without any limit on the depth, and with a limit that no way down exceeds it gives
the same listing.
-/

namespace UiCatalog.Graph

open Relation

/-- A listing and what is still to be listed. -/
structure Expansion where
  listing : Array TreeEntry
  waiting : List Waiting

namespace Expansion

def start (v : Nat) : Expansion :=
  ⟨#[], [⟨v, 0, none⟩]⟩

/-- One round: the next waiting node is listed, and its children wait in front of all others. -/
def next (children : Nat → List Nat) (x : Expansion) : Expansion :=
  match x.waiting with
  | [] => x
  | w :: waiting =>
    let below := (children w.node).map (⟨·, w.depth + 1, some x.listing.size⟩)
    ⟨addEntry x.listing w, below ++ waiting⟩

end Expansion

def adopt (listing : Array TreeEntry) (parent : Option Nat) (places : List Nat) :
    Array TreeEntry :=
  match parent with
  | some parent =>
    listing.modify parent fun entry => { entry with children := entry.children ++ places }
  | none => listing

private theorem addEntry_eq (listing : Array TreeEntry) (w : Waiting) :
    addEntry listing w = (adopt listing w.parent [listing.size]).push ⟨w.node, w.depth, []⟩ := by
  obtain ⟨node, depth, parent⟩ := w
  cases parent <;> rfl

@[simp]
theorem size_adopt (listing : Array TreeEntry) (parent : Option Nat) (places : List Nat) :
    (adopt listing parent places).size = listing.size := by
  cases parent <;> simp [adopt]

private theorem adopt_nil (listing : Array TreeEntry) (parent : Option Nat) :
    adopt listing parent [] = listing := by
  cases parent with
  | none => rfl
  | some parent => ext i <;> simp [adopt, Array.getElem_modify]

private theorem adopt_adopt (listing : Array TreeEntry) (parent : Option Nat)
    (places places' : List Nat) :
    adopt (adopt listing parent places) parent places' =
      adopt listing parent (places ++ places') := by
  cases parent with
  | none => rfl
  | some parent =>
    apply Array.ext (by simp)
    intro i _ _
    by_cases hi : parent = i <;> simp [adopt, Array.getElem_modify, hi]

private theorem adopt_append {listing : Array TreeEntry} {parent : Nat} (h : parent < listing.size)
    (later : Array TreeEntry) (places : List Nat) :
    adopt (listing ++ later) (some parent) places =
      adopt listing (some parent) places ++ later := by
  apply Array.ext (by simp)
  intro i _ _
  by_cases hi : i < listing.size
  · simp [adopt, Array.getElem_modify, hi]
  · have hne : parent ≠ i := by omega
    simp [adopt, Array.getElem_append, Array.getElem_modify, hi, hne]

private theorem adopt_push (listing : Array TreeEntry) (v depth : Nat) (places : List Nat) :
    adopt (listing.push ⟨v, depth, []⟩) (some listing.size) places =
      listing.push ⟨v, depth, places⟩ := by
  apply Array.ext (by simp)
  intro i hi hi'
  have hle : i < listing.size + 1 := by simpa using hi'
  by_cases hlt : i < listing.size
  · simp [adopt, Array.getElem_push, Array.getElem_modify, hlt, hlt.ne']
  · obtain rfl : i = listing.size := by omega
    simp [adopt, Array.getElem_modify]

namespace Expansion

variable {children : Nat → List Nat} {tree : Nat → NodeTree}

private theorem next_cons (children : Nat → List Nat) (listing : Array TreeEntry) (w : Waiting)
    (waiting : List Waiting) : next children ⟨listing, w :: waiting⟩ =
      ⟨addEntry listing w,
        (children w.node).map (⟨·, w.depth + 1, some listing.size⟩) ++ waiting⟩ := rfl

mutual

/-- The loop lists the tree of the first waiting node before it comes to the others. -/
private theorem iterate_next (htree : IsUnfolding children tree) {t : NodeTree} {w : Waiting}
    (ht : tree w.node = t) (listing : Array TreeEntry) (waiting : List Waiting) :
    (next children)^[t.size] ⟨listing, w :: waiting⟩ =
      ⟨adopt listing w.parent [listing.size] ++ (t.entries w.depth listing.size).toArray,
        waiting⟩ := by
  match t with
  | .node root branches =>
    obtain ⟨rfl, hbranches⟩ := NodeTree.node.inj ((htree w.node).symm.trans ht)
    have hlt : listing.size < (addEntry listing w).size := by simp [addEntry_eq]
    have hbelow := iterate_next_branches htree hbranches (w.depth + 1) hlt waiting
    rw [NodeTree.size, Nat.add_comm, Function.iterate_add_apply, Function.iterate_one, next_cons,
      hbelow]
    have hsize : (adopt listing w.parent [listing.size]).size = listing.size := size_adopt ..
    have hadopt := adopt_push (adopt listing w.parent [listing.size]) w.node w.depth
      (NodeTree.places (listing.size + 1) branches)
    rw [hsize] at hadopt
    rw [addEntry_eq, Array.size_push, hsize, hadopt, NodeTree.entries]
    simp

theorem iterate_next_branches (htree : IsUnfolding children tree) {vs : List Nat}
    {ts : List NodeTree} (hts : vs.map tree = ts) (depth : Nat) {parent : Nat}
    {listing : Array TreeEntry} (hparent : parent < listing.size) (waiting : List Waiting) :
    (next children)^[NodeTree.sizes ts]
        ⟨listing, vs.map (⟨·, depth, some parent⟩) ++ waiting⟩ =
      ⟨adopt listing (some parent) (NodeTree.places listing.size ts) ++
        (NodeTree.branchEntries depth listing.size ts).toArray, waiting⟩ := by
  match ts with
  | [] =>
    obtain rfl := List.map_eq_nil_iff.mp hts
    simp [NodeTree.sizes, NodeTree.places, NodeTree.branchEntries, adopt_nil]
  | t :: ts =>
    obtain ⟨v, vs, rfl, hv, hvs⟩ := List.map_eq_cons_iff.mp hts
    have hfirst := iterate_next htree (w := ⟨v, depth, some parent⟩) hv listing
      (vs.map (⟨·, depth, some parent⟩) ++ waiting)
    rw [NodeTree.sizes, Nat.add_comm, Function.iterate_add_apply, List.map_cons, List.cons_append,
      hfirst]
    have hlt : parent < (adopt listing (some parent) [listing.size] ++
        (t.entries depth listing.size).toArray).size := by
      rw [Array.size_append, size_adopt]
      omega
    rw [iterate_next_branches htree hvs depth hlt waiting,
      adopt_append (by simpa using hparent), adopt_adopt]
    simp [NodeTree.places, NodeTree.branchEntries, NodeTree.length_entries]

end

/-- Whether no way down from a waiting node goes deeper than a limit. -/
def Fits (children : Nat → List Nat) (limit : Nat) (w : Waiting) : Prop :=
  ∀ way : List Nat, (w.node :: way).IsChain (Below children) → w.depth + way.length ≤ limit

private theorem unfoldFrom_eq_of_iterate {limit rounds : Nat} {listing t : Array TreeEntry}
    {waiting : List Waiting} (hfits : ∀ w ∈ waiting, Fits children limit w)
    (h : (next children)^[rounds] ⟨listing, waiting⟩ = ⟨t, []⟩) :
    unfoldFrom children limit listing waiting = t := by
  induction rounds generalizing listing waiting with
  | zero =>
    obtain ⟨rfl, rfl⟩ := Expansion.mk.inj h
    rw [unfoldFrom]
  | succ rounds ih =>
    rw [Function.iterate_succ_apply] at h
    cases waiting with
    | nil => exact ih hfits h
    | cons w waiting =>
      obtain ⟨hw, hwaiting⟩ := List.forall_mem_cons.mp hfits
      have hbelow : waitingBelow children limit listing.size w =
          (children w.node).map (⟨·, w.depth + 1, some listing.size⟩) := by
        unfold waitingBelow
        split
        · rfl
        · rename_i hdeep
          have hnone : children w.node = [] := List.eq_nil_iff_forall_not_mem.mpr fun c hc =>
            hdeep (hw [c] (List.isChain_pair.mpr hc))
          rw [hnone, List.map_nil]
      rw [unfoldFrom, hbelow]
      refine ih (List.forall_mem_append.mpr ⟨?_, hwaiting⟩) h
      intro below hmem
      obtain ⟨c, hc, rfl⟩ := List.mem_map.mp hmem
      intro way hway
      have hle := hw (c :: way) (List.isChain_cons_cons.mpr ⟨hc, hway⟩)
      rw [List.length_cons] at hle
      simp only
      omega

end Expansion

section

variable {children : Nat → List Nat}

/-- A node from which ways down are bounded comes after everything below it. -/
private theorem acc_below {bound v : Nat}
    (h : ∀ way : List Nat, (v :: way).IsChain (Below children) → way.length ≤ bound) :
    Acc (fun c v => Below children v c) v := by
  induction bound generalizing v with
  | zero => exact ⟨v, fun c hc => absurd (h [c] (List.isChain_pair.mpr hc)) (by simp)⟩
  | succ bound ih =>
    refine ⟨v, fun c hc => ih fun way hway => ?_⟩
    exact Nat.le_of_succ_le_succ (h (c :: way) (List.isChain_cons_cons.mpr ⟨hc, hway⟩))

variable (hacyclic : ∀ v, ¬TransGen (Below children) v v) {size : Nat}
  (hsize : ∀ u, ∀ v ∈ children u, v < size)

include hacyclic hsize

theorem wellFounded_below : WellFounded fun c v => Below children v c :=
  ⟨fun v => ⟨v, fun c hc => acc_below fun _ hway =>
    (length_lt_of_chain hacyclic hsize (hsize v c hc) hway).le⟩⟩

/-- Where no node stands below itself, the limit on the depth cuts nothing off: the loop without it
comes to an end, and both list the recursive tree. -/
theorem unfold_eq_entries {tree : Nat → NodeTree} (htree : IsUnfolding children tree) {v : Nat}
    (hv : v < size) : (unfold children size v).toList = (tree v).entries 0 0 ∧
      (Expansion.next children)^[(unfold children size v).size] (Expansion.start v) =
        ⟨unfold children size v, []⟩ := by
  have hrounds := Expansion.iterate_next htree (w := ⟨v, 0, none⟩) rfl #[] []
  have hlisting : adopt #[] none [0] ++ ((tree v).entries 0 0).toArray =
      ((tree v).entries 0 0).toArray := by
    rw [adopt, Array.empty_append]
  have hfits : ∀ w ∈ [⟨v, 0, none⟩], Expansion.Fits children size w := by
    intro w hw way hway
    obtain rfl := List.mem_singleton.mp hw
    have hlt := length_lt_of_chain hacyclic hsize hv hway
    simp only
    omega
  have hunfold : unfold children size v = ((tree v).entries 0 0).toArray :=
    (Expansion.unfoldFrom_eq_of_iterate hfits hrounds).trans hlisting
  refine ⟨by rw [hunfold], ?_⟩
  rw [hunfold, List.size_toArray, NodeTree.length_entries]
  exact hrounds.trans (congrArg (Expansion.mk · []) hlisting)

end

end UiCatalog.Graph
