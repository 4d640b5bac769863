import Mathlib.Data.List.Perm.Basic
import Mathlib.Data.List.Nodup
import Mathlib.Logic.Relation
import UiCatalog.Graph.Components
/-!
# Components by segments

The nodes on the way from the start of a depth-first search are kept in segments, innermost first,
each of nodes that reach each other. A link back to an earlier segment joins all segments from there
on; a segment without further links is a component. The search keeps three facts about what it has
reached: the nodes of a segment reach each other and everything further in, links that were followed
lead inwards or to finished components, and finished components lead to each other only backwards.
-/

namespace UiCatalog.Graph

open Relation

def Edge (g : Graph) (u v : Nat) : Prop :=
  v ∈ g.targets u

def Valid (g : Graph) : Prop :=
  ∀ u, ∀ v ∈ g.targets u, v < g.size

def Reaches (g : Graph) : Nat → Nat → Prop :=
  ReflTransGen g.Edge

theorem mem_nodes {g : Graph} {v : Nat} : v ∈ g.nodes ↔ v < g.size :=
  List.mem_range

theorem nodup_nodes (g : Graph) : g.nodes.Nodup :=
  List.nodup_range

private theorem targets_eq_nil {g : Graph} {v : Nat} (hv : g.size ≤ v) : g.targets v = [] := by
  simp [targets, List.getElem?_eq_none hv]

theorem Edge.lt_size {g : Graph} {u v : Nat} (h : g.Edge u v) : u < g.size := by
  by_contra hu
  simp [Edge, targets_eq_nil (Nat.not_lt.mp hu)] at h

private theorem valid_iff {g : Graph} :
    g.Valid ↔ ∀ targets ∈ g.links, ∀ v ∈ targets, v < g.size := by
  constructor
  · intro hg targets htargets
    obtain ⟨u, hu⟩ := List.getElem?_of_mem htargets
    simpa [Graph.targets, hu] using hg u
  · intro hlinks u v hedge
    cases htargets : g.links[u]? with
    | none => simp [Graph.targets, htargets] at hedge
    | some targets =>
      rw [Graph.targets, htargets, Option.getD_some] at hedge
      exact hlinks targets (List.mem_of_getElem? htargets) v hedge

instance (g : Graph) : Decidable g.Valid :=
  decidable_of_iff' _ valid_iff

/-! ## The search -/

/-- Nodes on the current way that reach each other, and the links out of them not yet followed. -/
structure Segment where
  members : List Nat
  pending : List Nat

def Segment.start (g : Graph) (v : Nat) : Segment :=
  ⟨[v], g.targets v⟩

def Segment.join (a b : Segment) : Segment :=
  ⟨a.members ++ b.members, a.pending ++ b.pending⟩

/-- A way after a link from its innermost segment to `w`: if a segment holds `w`, all segments up to
that one are joined. -/
def close (w : Nat) (inner : Segment) : List Segment → List Segment
  | [] => [inner]
  | outer :: way =>
    if w ∈ inner.members then inner :: outer :: way
    else if (outer :: way).any (w ∈ ·.members) then close w (inner.join outer) way
    else inner :: outer :: way

def wayWork (way : List Segment) : Nat :=
  total (way.map fun s => s.pending.length + 1)

private theorem wayWork_close_le (w : Nat) (inner : Segment) (way : List Segment) :
    wayWork (close w inner way) ≤ wayWork (inner :: way) := by
  fun_induction close w inner way with
  | case1 => exact Nat.le_refl _
  | case2 => exact Nat.le_refl _
  | case3 inner outer way _ _ ih =>
    refine Nat.le_trans ih ?_
    simp only [wayWork, Segment.join, List.map_cons, total, List.length_append]
    omega
  | case4 => exact Nat.le_refl _

/-- The components that are found from a way on, before those in `found`. -/
def search (g : Graph) (fresh : List Nat) (way : List Segment) (found : List (List Nat)) :
    List (List Nat) :=
  match way with
  | [] =>
    match fresh with
    | [] => found
    | v :: fresh => search g fresh [Segment.start g v] found
  | ⟨members, []⟩ :: way => search g fresh way (members :: found)
  | ⟨members, w :: pending⟩ :: way =>
    if w ∈ fresh then
      search g (fresh.erase w) (Segment.start g w :: ⟨members, pending⟩ :: way) found
    else search g fresh (close w ⟨members, pending⟩ way) found
termination_by freshWork g fresh + wayWork way
decreasing_by
  · simp only [freshWork, wayWork, Segment.start, List.map_cons, List.map_nil, total]
    omega
  · simp [wayWork, total]
  · rename_i h
    have := freshWork_erase g h
    simp only [wayWork, Segment.start, List.map_cons, total, List.length_cons]
    omega
  · have := wayWork_close_le w ⟨members, pending⟩ way
    simp only [wayWork, List.map_cons, total, List.length_cons] at this ⊢
    omega

/-! ## What it keeps -/

/-- Finished components, the latest first: the nodes of each reach each other, and their links lead
to it or to earlier ones. -/
def Settled (g : Graph) : List (List Nat) → Prop
  | [] => True
  | c :: earlier =>
    c ≠ [] ∧ (∀ a ∈ c, ∀ b ∈ c, g.Reaches a b) ∧
      (∀ a ∈ c, ∀ b ∈ g.targets a, b ∈ c ∨ b ∈ earlier.flatten) ∧ Settled g earlier

/-- The nodes of a segment reach each other and the nodes of the segments further in. -/
def Linked (g : Graph) : List Segment → Prop
  | [] => True
  | s :: way =>
    s.members ≠ [] ∧ (∀ a ∈ s.members, ∀ b ∈ s.members, g.Reaches a b) ∧
      (∀ outer ∈ way, ∀ a ∈ outer.members, ∀ b ∈ s.members, g.Reaches a b) ∧ Linked g way

/-- Links that were followed lead to the same segment, to one further in or to a `seen` node. -/
def Explored (g : Graph) (seen : List Nat) : List Segment → Prop
  | [] => True
  | s :: way =>
    (∀ a ∈ s.members, ∀ b ∈ g.targets a, b ∈ s.pending ∨ b ∈ seen ∨ b ∈ s.members) ∧
      Explored g (s.members ++ seen) way

/-- What holds at every point of the search. -/
structure Searching (g : Graph) (fresh : List Nat) (way : List Segment)
    (found : List (List Nat)) : Prop where
  nodes : (fresh ++ way.flatMap Segment.members ++ found.flatten).Perm g.nodes
  pending : ∀ s ∈ way, ∀ b ∈ s.pending, ∃ a ∈ s.members, b ∈ g.targets a
  linked : Linked g way
  explored : Explored g found.flatten way
  settled : Settled g found

private theorem Explored.mono {g : Graph} {seen seen' : List Nat} {way : List Segment}
    (h : Explored g seen way) (hseen : seen ⊆ seen') : Explored g seen' way := by
  induction way generalizing seen seen' with
  | nil => trivial
  | cons s way ih =>
    refine ⟨fun a ha b hb => ?_, ih h.2 (List.append_subset.mpr ⟨by simp, ?_⟩)⟩
    · rcases h.1 a ha b hb with hb | hb | hb
      · exact Or.inl hb
      · exact Or.inr (Or.inl (hseen hb))
      · exact Or.inr (Or.inr hb)
    · exact fun b hb => List.mem_append_right _ (hseen hb)

section Close

variable {g : Graph} {w : Nat}

theorem flatMap_members_close (w : Nat) (inner : Segment) (way : List Segment) :
    (close w inner way).flatMap Segment.members = (inner :: way).flatMap Segment.members := by
  fun_induction close w inner way with
  | case1 => rfl
  | case2 => rfl
  | case3 _ _ _ _ _ ih => simpa [Segment.join, List.append_assoc] using ih
  | case4 => rfl

private theorem pending_close {inner : Segment} {way : List Segment}
    (h : ∀ s ∈ inner :: way, ∀ b ∈ s.pending, ∃ a ∈ s.members, b ∈ g.targets a) :
    ∀ s ∈ close w inner way, ∀ b ∈ s.pending, ∃ a ∈ s.members, b ∈ g.targets a := by
  fun_induction close w inner way with
  | case1 => exact h
  | case2 => exact h
  | case3 inner outer way _ _ ih =>
    obtain ⟨hinner, houter, hway⟩ := by simpa only [List.forall_mem_cons] using h
    refine ih (List.forall_mem_cons.mpr ⟨fun b hb => ?_, hway⟩)
    rcases List.mem_append.mp hb with hb | hb
    · obtain ⟨a, ha, hab⟩ := hinner b hb
      exact ⟨a, List.mem_append_left _ ha, hab⟩
    · obtain ⟨a, ha, hab⟩ := houter b hb
      exact ⟨a, List.mem_append_right _ ha, hab⟩
  | case4 => exact h

/-- Joining is right because a node of the inner segment links to `w`, which reaches back. -/
private theorem linked_close {inner : Segment} {way : List Segment} (h : Linked g (inner :: way))
    (hw : ∃ a ∈ inner.members, g.Reaches a w) : Linked g (close w inner way) := by
  fun_induction close w inner way with
  | case1 => exact h
  | case2 => exact h
  | case3 inner outer way hnot hany ih =>
    obtain ⟨hne, hinner, hinto, _, houter, houtto, hway⟩ := h
    obtain ⟨a, ha, haw⟩ := hw
    obtain ⟨t, ht, hwt⟩ := List.any_eq_true.mp hany
    have hwt : w ∈ t.members := by simpa using hwt
    have hforth : ∀ x ∈ inner.members, ∀ y ∈ outer.members, g.Reaches x y := by
      intro x hx y hy
      have hwy : g.Reaches w y := by
        rcases List.mem_cons.mp ht with rfl | ht
        · exact houter w hwt y hy
        · exact houtto t ht w hwt y hy
      exact ((hinner x hx a ha).trans haw).trans hwy
    have hback : ∀ x ∈ outer.members, ∀ y ∈ inner.members, g.Reaches x y :=
      hinto outer (by simp)
    refine ih ⟨by simp [Segment.join, hne], ?_, ?_, hway⟩ ⟨a, by simp [Segment.join, ha], haw⟩
    · intro x hx y hy
      rcases List.mem_append.mp hx with hx | hx <;> rcases List.mem_append.mp hy with hy | hy
      · exact hinner x hx y hy
      · exact hforth x hx y hy
      · exact hback x hx y hy
      · exact houter x hx y hy
    · intro u hu x hx y hy
      rcases List.mem_append.mp hy with hy | hy
      · exact hinto u (List.mem_cons_of_mem outer hu) x hx y hy
      · exact houtto u hu x hx y hy
  | case4 => exact h

private theorem explored_close {inner : Segment} {way : List Segment} {seen : List Nat}
    (hinner : ∀ a ∈ inner.members, ∀ b ∈ g.targets a,
      b ∈ inner.pending ∨ b = w ∨ b ∈ seen ∨ b ∈ inner.members)
    (hway : Explored g (inner.members ++ seen) way)
    (hw : w ∈ seen ∨ w ∈ (inner :: way).flatMap Segment.members) :
    Explored g seen (close w inner way) := by
  -- once `w` is known to lie inwards, the followed link to it is like all others
  have hstop {inner : Segment} {way : List Segment}
      (hinner : ∀ a ∈ inner.members, ∀ b ∈ g.targets a,
        b ∈ inner.pending ∨ b = w ∨ b ∈ seen ∨ b ∈ inner.members)
      (hway : Explored g (inner.members ++ seen) way) (hw : w ∈ seen ∨ w ∈ inner.members) :
      Explored g seen (inner :: way) := by
    refine ⟨fun a ha b hb => ?_, hway⟩
    rcases hinner a ha b hb with hb | rfl | hb
    · exact Or.inl hb
    · exact Or.inr hw
    · exact Or.inr hb
  fun_induction close w inner way with
  | case1 inner => exact hstop hinner hway (by simpa using hw)
  | case2 inner outer way hmem => exact hstop hinner hway (Or.inr hmem)
  | case3 inner outer way _ _ ih =>
    refine ih (fun a ha b hb => ?_) (hway.2.mono ?_) ?_
    · rcases List.mem_append.mp ha with ha | ha
      · rcases hinner a ha b hb with hb | hb | hb | hb <;> simp [Segment.join, hb]
      · rcases hway.1 a ha b hb with hb | hb | hb
        · simp [Segment.join, hb]
        · rcases List.mem_append.mp hb with hb | hb <;> simp [Segment.join, hb]
        · simp [Segment.join, hb]
    · intro b hb
      simp only [Segment.join, List.mem_append] at hb ⊢
      tauto
    · simpa [Segment.join, or_assoc] using hw
  | case4 inner outer way hnot hany =>
    refine hstop hinner hway (Or.inl ?_)
    rcases hw with hw | hw
    · exact hw
    · rw [List.flatMap_cons, List.mem_append] at hw
      rcases hw with hw | hw
      · exact absurd hw hnot
      · obtain ⟨t, ht, hwt⟩ := List.mem_flatMap.mp hw
        exact absurd (List.any_eq_true.mpr ⟨t, ht, by simpa using hwt⟩) hany

end Close

namespace Searching

variable {g : Graph} {fresh pending members : List Nat} {way : List Segment}
  {found : List (List Nat)} {v w : Nat}

private theorem start (h : Searching g (v :: fresh) [] found) :
    Searching g fresh [Segment.start g v] found := by
  refine ⟨?_, ?_, ⟨by simp [Segment.start], ?_, by simp, trivial⟩, ⟨?_, trivial⟩, h.settled⟩
  · refine List.Perm.trans ?_ h.nodes
    simp only [Segment.start, List.flatMap_cons, List.flatMap_nil, List.append_nil]
    exact (List.perm_append_singleton v fresh).append_right _
  · intro s hs b hb
    obtain rfl : s = Segment.start g v := by simpa using hs
    exact ⟨v, by simp [Segment.start], hb⟩
  · intro a ha b hb
    obtain rfl : a = v := by simpa [Segment.start] using ha
    obtain rfl : b = a := by simpa [Segment.start] using hb
    exact ReflTransGen.refl
  · intro a ha b hb
    obtain rfl : a = v := by simpa [Segment.start] using ha
    exact Or.inl hb

private theorem pop (h : Searching g fresh (⟨members, []⟩ :: way) found) :
    Searching g fresh way (members :: found) := by
  obtain ⟨hne, hmutual, _, hlinked⟩ := h.linked
  refine ⟨?_, fun s hs => h.pending s (List.mem_cons_of_mem _ hs), hlinked, h.explored.2, hne,
    hmutual, fun a ha b hb => ?_, h.settled⟩
  · refine List.Perm.trans ?_ h.nodes
    simp only [List.flatMap_cons, List.flatten_cons, List.append_assoc]
    exact (List.perm_append_comm_assoc _ _ _).append_left fresh
  · rcases h.explored.1 a ha b hb with hb | hb | hb
    · simp at hb
    · exact Or.inr hb
    · exact Or.inl hb

private theorem push (hw : w ∈ fresh)
    (h : Searching g fresh (⟨members, w :: pending⟩ :: way) found) :
    Searching g (fresh.erase w) (Segment.start g w :: ⟨members, pending⟩ :: way) found := by
  obtain ⟨hne, hmutual, hinto, hlinked⟩ := h.linked
  obtain ⟨hpending, hway⟩ := List.forall_mem_cons.mp h.pending
  obtain ⟨a, ha, hedge⟩ := hpending w (by simp)
  have hreach : ∀ x ∈ members, g.Reaches x w := fun x hx => (hmutual x hx a ha).tail hedge
  refine ⟨?_, ?_, ⟨by simp [Segment.start], ?_, ?_, hne, hmutual, hinto, hlinked⟩, ⟨?_, ?_, ?_⟩,
    h.settled⟩
  · refine List.Perm.trans ?_ h.nodes
    have hmiddle : (fresh.erase w ++ w :: (members ++ way.flatMap Segment.members)).Perm
        (fresh ++ (members ++ way.flatMap Segment.members)) :=
      List.perm_middle.trans ((List.perm_cons_erase hw).symm.append_right _)
    exact hmiddle.append_right _
  · refine List.forall_mem_cons.mpr ⟨fun b hb => ⟨w, by simp [Segment.start], hb⟩, ?_⟩
    exact List.forall_mem_cons.mpr
      ⟨fun b hb => hpending b (List.mem_cons_of_mem w hb), hway⟩
  · intro x hx y hy
    obtain rfl : x = w := by simpa [Segment.start] using hx
    obtain rfl : y = x := by simpa [Segment.start] using hy
    exact ReflTransGen.refl
  · intro outer houter x hx y hy
    obtain rfl : y = w := by simpa [Segment.start] using hy
    rcases List.mem_cons.mp houter with rfl | houter
    · exact hreach x hx
    · exact (hinto outer houter x hx a ha).trans (hreach a ha)
  · intro x hx b hb
    obtain rfl : x = w := by simpa [Segment.start] using hx
    exact Or.inl hb
  · intro x hx b hb
    rcases h.explored.1 x hx b hb with hb | hb | hb
    · rcases List.mem_cons.mp hb with rfl | hb
      · exact Or.inr (Or.inl (by simp [Segment.start]))
      · exact Or.inl hb
    · exact Or.inr (Or.inl (List.mem_append_right _ hb))
    · exact Or.inr (Or.inr hb)
  · refine h.explored.2.mono fun b hb => ?_
    simp only [List.mem_append] at hb ⊢
    tauto

private theorem close (hg : g.Valid) (hw : w ∉ fresh)
    (h : Searching g fresh (⟨members, w :: pending⟩ :: way) found) :
    Searching g fresh (Graph.close w ⟨members, pending⟩ way) found := by
  obtain ⟨hpending, hway⟩ := List.forall_mem_cons.mp h.pending
  obtain ⟨a, ha, hedge⟩ := hpending w (by simp)
  have hmem : w ∈ found.flatten ∨
      w ∈ ((⟨members, pending⟩ : Segment) :: way).flatMap Segment.members := by
    have hw' := h.nodes.mem_iff.mpr (mem_nodes.mpr (hg a w hedge))
    rw [List.append_assoc, List.mem_append, List.mem_append] at hw'
    rcases hw' with hw' | hw' | hw'
    · exact absurd hw' hw
    · exact Or.inr hw'
    · exact Or.inl hw'
  refine ⟨?_, ?_, linked_close h.linked ⟨a, ha, ReflTransGen.single hedge⟩,
    explored_close ?_ h.explored.2 hmem, h.settled⟩
  · rw [flatMap_members_close]
    exact h.nodes
  · exact pending_close (List.forall_mem_cons.mpr
      ⟨fun b hb => hpending b (List.mem_cons_of_mem w hb), hway⟩)
  · intro x hx b hb
    rcases h.explored.1 x hx b hb with hb | hb | hb
    · rcases List.mem_cons.mp hb with rfl | hb
      · exact Or.inr (Or.inl rfl)
      · exact Or.inl hb
    · exact Or.inr (Or.inr (Or.inl hb))
    · exact Or.inr (Or.inr (Or.inr hb))

/-- The search ends with all nodes in finished components. -/
theorem search (hg : g.Valid) (h : Searching g fresh way found) :
    Searching g [] [] (Graph.search g fresh way found) := by
  fun_induction Graph.search g fresh way found with
  | case1 => exact h
  | case2 found v fresh ih => exact ih h.start
  | case3 fresh found members way ih => exact ih h.pop
  | case4 fresh found members w pending way hw ih => exact ih (h.push hw)
  | case5 fresh found members w pending way hw ih => exact ih (h.close hg hw)

end Searching

end UiCatalog.Graph
