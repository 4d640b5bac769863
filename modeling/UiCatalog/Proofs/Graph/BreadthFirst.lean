import UiCatalog.Proofs.Cycle
import UiCatalog.Proofs.Graph.ShortestCycle
/-!
# The search finds a shortest cycle

Ways wait in the order of their lengths. Of a closed walk from the start, the search always keeps a
node to which it has a way that is no longer than the walk up to it, and has not yet looked at the
nodes after it. So when a link closes to the start, the way to it is no longer than the walk.
-/

namespace UiCatalog.Graph

open Relation

/-- Nodes of which each links to the next one and the last one links back to the first. -/
structure IsClosedWalk (g : Graph) (walk : List Nat) : Prop where
  ne_nil : walk ≠ []
  steps : (walk ++ walk.head?.toList).IsChain g.Edge

private theorem IsClosedWalk.exists_from {g : Graph} {walk : List Nat} {v : Nat}
    (h : g.IsClosedWalk walk) (hv : v ∈ walk) :
    ∃ rest, g.IsClosedWalk (v :: rest) ∧ (v :: rest).length = walk.length := by
  obtain ⟨l, l', rfl⟩ := List.append_of_mem hv
  refine ⟨l' ++ l, ⟨List.cons_ne_nil _ _, ?_⟩, by simp; omega⟩
  exact isChain_rotate h.steps

private theorem IsClosedWalk.reaches {g : Graph} {v u : Nat} {rest : List Nat}
    (h : g.IsClosedWalk (v :: rest)) (hu : u ∈ rest) : g.Reaches v u ∧ g.Reaches u v := by
  have hsteps : (v :: rest ++ [v]).IsChain g.Edge := h.steps
  obtain ⟨l, l', rfl⟩ := List.append_of_mem hu
  have hsplit : (v :: l ++ u :: (l' ++ [v])).IsChain g.Edge := by simpa using hsteps
  obtain ⟨hto, hback⟩ := List.isChain_split.mp hsplit
  exact ⟨reflTransGen_last (l := v :: l) hto (by simp),
    reflTransGen_last (l := u :: l') hback (by simp)⟩

/-- A way from the start to its first node, kept backwards, over nodes that are not fresh. -/
structure IsWayBack (g : Graph) (start : Nat) (fresh way : List Nat) : Prop where
  last : way.getLast? = some start
  steps : way.IsChain fun v u => g.Edge u v
  nodup : way.Nodup
  taken : ∀ v ∈ way, v ∉ fresh

private theorem IsWayBack.mono {g : Graph} {start : Nat} {fresh fresh' way : List Nat}
    (h : g.IsWayBack start fresh way) (hsubset : fresh' ⊆ fresh) : g.IsWayBack start fresh' way :=
  ⟨h.last, h.steps, h.nodup, fun v hv hfresh => h.taken v hv (hsubset hfresh)⟩

private theorem IsWayBack.cons {g : Graph} {start u v : Nat} {fresh fresh' back : List Nat}
    (h : g.IsWayBack start fresh (v :: back)) (hedge : g.Edge v u) (hu : u ∈ fresh)
    (hsubset : fresh' ⊆ fresh) (hu' : u ∉ fresh') : g.IsWayBack start fresh' (u :: v :: back) where
  last := by rw [List.getLast?_cons_cons, h.last]
  steps := List.isChain_cons_cons.mpr ⟨hedge, h.steps⟩
  nodup := List.nodup_cons.mpr ⟨fun hmem => h.taken u hmem hu, h.nodup⟩
  taken := List.forall_mem_cons.mpr ⟨hu', (h.mono hsubset).taken⟩

private theorem IsWayBack.isCycle {g : Graph} {start v : Nat} {fresh back : List Nat}
    (h : g.IsWayBack start fresh (v :: back)) (hedge : g.Edge v start) :
    IsCycle g.Edge (v :: back).reverse where
  ne_nil := by simp
  nodup := List.nodup_reverse.mpr h.nodup
  steps := by
    have hhead : (v :: back).reverse.head? = some start := by rw [List.head?_reverse, h.last]
    have hround : (start :: v :: back).IsChain fun b a => g.Edge a b :=
      List.isChain_cons_cons.mpr ⟨hedge, h.steps⟩
    have hreverse := List.isChain_reverse.mpr hround
    rw [List.reverse_cons] at hreverse
    rw [hhead]
    exact hreverse

private theorem closing_isCycle {g : Graph} {start : Nat} {fresh : List Nat}
    {queue : List (List Nat)} {way : List Nat} (h : closing g start fresh queue = some way)
    (hfresh : fresh.Nodup) (hqueue : ∀ w ∈ queue, w ≠ [] → g.IsWayBack start fresh w) :
    IsCycle g.Edge way := by
  fun_induction closing g start fresh queue with
  | case1 => simp at h
  | case2 fresh queue ih => exact ih h hfresh fun w hw => hqueue w (List.mem_cons_of_mem [] hw)
  | case3 fresh v back queue hstart =>
    obtain rfl : (v :: back).reverse = way := Option.some.inj h
    exact (hqueue (v :: back) (by simp) (by simp)).isCycle hstart
  | case4 fresh v back queue hstart reached ih =>
    have hperm := reach_perm (g.targets v) fresh
    obtain ⟨_, hnodup, hdisjoint⟩ := List.nodup_append.mp (hperm.nodup_iff.mpr hfresh)
    have hsubset : reached.2 ⊆ fresh := fun u hu =>
      hperm.mem_iff.mp (List.mem_append_right _ hu)
    refine ih h hnodup fun w hw hne => ?_
    rcases List.mem_append.mp hw with hw | hw
    · exact (hqueue w (List.mem_cons_of_mem _ hw) hne).mono hsubset
    · obtain ⟨u, hu, rfl⟩ := List.mem_map.mp hw
      exact (hqueue (v :: back) (by simp) (by simp)).cons (edge_of_mem_reach hu)
        (hperm.mem_iff.mp (List.mem_append_left _ hu)) hsubset fun hu' => hdisjoint u hu u hu' rfl

/-- Ways in the order of their lengths, none of them more than one link longer than another. -/
def Leveled (queue : List (List Nat)) : Prop :=
  queue.Pairwise fun w w' => w.length ≤ w'.length ∧ w'.length ≤ w.length + 1

private theorem Leveled.length_le {way w : List Nat} {queue : List (List Nat)}
    (h : Leveled (way :: queue)) (hw : w ∈ way :: queue) : way.length ≤ w.length := by
  rcases List.mem_cons.mp hw with rfl | hw
  · exact Nat.le_refl _
  · exact ((List.pairwise_cons.mp h).1 w hw).1

private theorem Leveled.append {way : List Nat} {queue : List (List Nat)}
    (h : Leveled (way :: queue)) (links : List Nat) : Leveled (queue ++ links.map (· :: way)) := by
  obtain ⟨hfirst, hqueue⟩ := List.pairwise_cons.mp h
  refine List.pairwise_append.mpr ⟨hqueue, ?_, fun w hw w' hw' => ?_⟩
  · rw [List.pairwise_map]
    exact List.pairwise_of_forall fun _ _ => by simp
  · obtain ⟨u, _, rfl⟩ := List.mem_map.mp hw'
    obtain ⟨hle, hge⟩ := hfirst w hw
    rw [List.length_cons]
    omega

/-- A node that the search has not looked at yet: it is fresh, or a way to it waits. -/
def Pending (fresh : List Nat) (queue : List (List Nat)) (v : Nat) : Prop :=
  v ∈ fresh ∨ ∃ back, v :: back ∈ queue

/-- Where the search keeps up with a walk: a way waits to one of its nodes that is no longer than
the walk up to there, and the search has not looked at the nodes after it yet. -/
def KeepsUp (fresh : List Nat) (queue : List (List Nat)) (walk : List Nat) : Prop :=
  ∃ before u after back, walk = before ++ u :: after ∧ u :: back ∈ queue ∧
    back.length ≤ before.length ∧ ∀ v ∈ after, Pending fresh queue v

private theorem Pending.next {g : Graph} {fresh back : List Nat} {queue : List (List Nat)}
    {u v : Nat} (h : Pending fresh ((v :: back) :: queue) u) (hne : u ≠ v) :
    Pending (reach (g.targets v) fresh).2
      (queue ++ (reach (g.targets v) fresh).1.map (· :: v :: back)) u := by
  rcases h with hfresh | ⟨back', hwait⟩
  · rcases List.mem_append.mp ((reach_perm (g.targets v) fresh).mem_iff.mpr hfresh) with hu | hu
    · exact Or.inr ⟨v :: back, List.mem_append_right _ (List.mem_map.mpr ⟨u, hu, rfl⟩)⟩
    · exact Or.inl hu
  · rcases List.mem_cons.mp hwait with heq | hwait
    · exact absurd (List.cons.inj heq).1 hne
    · exact Or.inr ⟨back', List.mem_append_left _ hwait⟩

/-- A node that the node just looked at links to waits with a way that is at most one link longer.
-/
private theorem Pending.exists_way {g : Graph} {fresh back : List Nat} {queue : List (List Nat)}
    {u v : Nat} (h : Pending fresh ((v :: back) :: queue) u) (hne : u ≠ v) (hedge : g.Edge v u)
    (hleveled : Leveled ((v :: back) :: queue)) :
    ∃ back', u :: back' ∈ queue ++ (reach (g.targets v) fresh).1.map (· :: v :: back) ∧
      back'.length ≤ back.length + 1 := by
  rcases h with hfresh | ⟨back', hwait⟩
  · exact ⟨v :: back, List.mem_append_right _
      (List.mem_map.mpr ⟨u, mem_reach hedge hfresh, rfl⟩), Nat.le_refl _⟩
  · rcases List.mem_cons.mp hwait with heq | hwait
    · exact absurd (List.cons.inj heq).1 hne
    · have hle := ((List.pairwise_cons.mp hleveled).1 _ hwait).2
      exact ⟨back', List.mem_append_left _ hwait, by simpa using hle⟩

private theorem exists_last_mem {v : Nat} {l : List Nat} (h : v ∈ l) :
    ∃ l₁ l₂, l = l₁ ++ v :: l₂ ∧ v ∉ l₂ := by
  obtain ⟨l₁, l₂, heq, hnot⟩ := List.eq_append_cons_of_mem (List.mem_reverse.mpr h)
  refine ⟨l₂.reverse, l₁.reverse, ?_, by simpa using hnot⟩
  rw [← List.reverse_reverse l, heq]
  simp

/-- The search keeps up with a closed walk when it has looked at a node that does not close. -/
private theorem KeepsUp.next {g : Graph} {start v : Nat} {fresh back walk : List Nat}
    {queue : List (List Nat)} (h : KeepsUp fresh ((v :: back) :: queue) walk)
    (hleveled : Leveled ((v :: back) :: queue)) (hwalk : (walk ++ [start]).IsChain g.Edge)
    (hopen : ¬g.Edge v start) : KeepsUp (reach (g.targets v) fresh).2
      (queue ++ (reach (g.targets v) fresh).1.map (· :: v :: back)) walk := by
  obtain ⟨before, u, after, back', rfl, hwait, hlength, hafter⟩ := h
  have hle : back.length ≤ back'.length := Nat.le_of_succ_le_succ (hleveled.length_le hwait)
  by_cases hv : v ∈ u :: after
  · -- the search goes on from the last time that the walk comes through `v`
    obtain ⟨l₁, l₂, hsplit, hnot⟩ := exists_last_mem hv
    have hl₂ : ∀ x ∈ l₂, Pending fresh ((v :: back) :: queue) x := by
      intro x hx
      apply hafter
      cases l₁ with
      | nil => exact (List.cons.inj hsplit).2 ▸ hx
      | cons w l₁ =>
        rw [(List.cons.inj hsplit).2]
        exact List.mem_append_right _ (List.mem_cons_of_mem v hx)
    have hchain : (before ++ l₁ ++ v :: (l₂ ++ [start])).IsChain g.Edge := by
      simpa [hsplit] using hwalk
    have hon := (List.isChain_split.mp hchain).2
    cases l₂ with
    | nil => exact absurd (by simpa using hon) hopen
    | cons x l₂ =>
      have hedge : g.Edge v x := (List.isChain_cons_cons.mp hon).1
      have hne {y : Nat} (hy : y ∈ x :: l₂) : y ≠ v := fun heq => hnot (heq ▸ hy)
      obtain ⟨back'', hwait', hlength'⟩ :=
        (hl₂ x List.mem_cons_self).exists_way (hne List.mem_cons_self) hedge hleveled
      refine ⟨before ++ l₁ ++ [v], x, l₂, back'', by simp [hsplit], hwait', ?_, fun y hy => ?_⟩
      · simp only [List.length_append, List.length_singleton]
        omega
      · have hmem := List.mem_cons_of_mem x hy
        exact (hl₂ y hmem).next (hne hmem)
  · have hne {y : Nat} (hy : y ∈ u :: after) : y ≠ v := fun heq => hv (heq ▸ hy)
    refine ⟨before, u, after, back', rfl, ?_, hlength, fun y hy => ?_⟩
    · rcases List.mem_cons.mp hwait with heq | hwait
      · exact absurd (List.cons.inj heq).1 (hne List.mem_cons_self)
      · exact List.mem_append_left _ hwait
    · exact (hafter y hy).next (hne (List.mem_cons_of_mem u hy))

private theorem length_closing_le {g : Graph} {start : Nat} {fresh walk : List Nat}
    {queue : List (List Nat)} {way : List Nat} (h : closing g start fresh queue = some way)
    (hwalk : (walk ++ [start]).IsChain g.Edge) (hleveled : Leveled queue)
    (hkeeps : KeepsUp fresh queue walk) : way.length ≤ walk.length := by
  fun_induction closing g start fresh queue with
  | case1 => simp at h
  | case2 fresh queue ih =>
    refine ih h (List.pairwise_cons.mp hleveled).2 ?_
    simpa [KeepsUp, Pending] using hkeeps
  | case3 fresh v back queue hstart =>
    obtain rfl : (v :: back).reverse = way := Option.some.inj h
    obtain ⟨before, u, after, back', rfl, hwait, hlength, _⟩ := hkeeps
    have hle := hleveled.length_le hwait
    simp only [List.length_reverse, List.length_cons, List.length_append] at hle ⊢
    omega
  | case4 fresh v back queue hstart reached ih =>
    exact ih h (hleveled.append reached.1) (hkeeps.next hleveled hwalk hstart)

/-- In a component with a cycle the search finds a cycle from the start on, and no closed walk
through the start is shorter. -/
theorem exists_shortest {g : Graph} (hg : g.Valid) {c : List Nat} {start : Nat}
    (hc : c ∈ g.cyclicComponents) (hstart : start ∈ c) :
    ∃ way, closing g start (c.erase start) [[start]] = some way ∧ way.head? = some start ∧
      IsCycle g.Edge way ∧
      ∀ walk, g.IsClosedWalk walk → start ∈ walk → way.length ≤ walk.length := by
  obtain ⟨way, hway, hhead⟩ := exists_closing hg hc hstart
  have hc := ((mem_cyclicComponents_iff hg).mp hc).1
  have hnodup := component_nodup hc
  refine ⟨way, hway, hhead, closing_isCycle hway (hnodup.erase start) ?_, fun walk hwalk hmem => ?_⟩
  · intro w hw _
    obtain rfl : w = [start] := by simpa using hw
    exact ⟨rfl, by simp, by simp, by simpa using hnodup.not_mem_erase⟩
  · obtain ⟨rest, hround, hlength⟩ := hwalk.exists_from hmem
    rw [← hlength]
    refine length_closing_le hway hround.steps (by simp [Leveled]) ?_
    refine ⟨[], start, rest, [], rfl, by simp, Nat.le_refl _, fun u hu => ?_⟩
    by_cases heq : u = start
    · exact Or.inr ⟨[], by simp [heq]⟩
    · have hin : u ∈ c := (mem_component_iff hg hc hstart).mpr (hround.reaches hu)
      exact Or.inl ((List.mem_erase_of_ne heq).mpr hin)

end UiCatalog.Graph
