import UiCatalog.Ancestry
import UiCatalog.Proofs.Cycle
import UiCatalog.Proofs.Registry.Lookup
/-!
# The way up from a type

The way up follows parents until there is none or until it comes back to a type that it has met. In
the first case no cycle can be reached; in the second the end of the way is a cycle.
-/

namespace UiCatalog

open Relation

def Follows (next : Handle → Option Handle) (h p : Handle) : Prop :=
  next h = some p

section Ascend

variable {next : Handle → Option Handle}

theorem mem_of_mem_ascend {fresh : List Handle} {h k : Handle}
    (hk : k ∈ (ascend next fresh h).path) : k ∈ fresh := by
  fun_induction ascend next fresh h with
  | case1 fresh h hmem _ =>
    obtain rfl : k = h := by simpa using hk
    exact hmem
  | case2 fresh h hmem p _ above ih =>
    rcases List.mem_cons.mp hk with rfl | hk
    · exact hmem
    · exact List.mem_of_mem_erase (ih hk)
  | case3 => simp at hk

private theorem ascend_path_nodup {fresh : List Handle} (hf : fresh.Nodup) (h : Handle) :
    (ascend next fresh h).path.Nodup := by
  fun_induction ascend next fresh h with
  | case1 => simp
  | case2 fresh h _ p _ above ih =>
    have hnot : h ∉ above.path := fun hmem => hf.not_mem_erase (mem_of_mem_ascend hmem)
    exact List.nodup_cons.mpr ⟨hnot, ih (hf.erase h)⟩
  | case3 => simp

theorem ascend_head? (fresh : List Handle) (h : Handle) :
    ((ascend next fresh h).path ++ (ascend next fresh h).back.toList).head? = some h := by
  fun_cases ascend next fresh h <;> simp

private theorem ascend_chain (fresh : List Handle) (h : Handle) :
    ((ascend next fresh h).path ++ (ascend next fresh h).back.toList).IsChain (Follows next) := by
  fun_induction ascend next fresh h with
  | case1 => simp
  | case2 fresh h _ p hp above ih =>
    refine List.IsChain.cons ih fun k hk => ?_
    have hk : (above.path ++ above.back.toList).head? = some k := hk
    rw [ascend_head? (fresh.erase h) p] at hk
    obtain rfl : p = k := Option.some.inj hk
    exact hp
  | case3 => simp

private theorem ascend_path_eq_cons {fresh : List Handle} {h : Handle} (hmem : h ∈ fresh) :
    ∃ path, (ascend next fresh h).path = h :: path := by
  unfold ascend
  rw [if_pos hmem]
  split <;> simp

private theorem ascend_end {fresh : List Handle} {h : Handle}
    (hback : (ascend next fresh h).back = none) :
    ∃ k ∈ (ascend next fresh h).path, next k = none ∧ ReflTransGen (Follows next) h k := by
  fun_induction ascend next fresh h with
  | case1 _ h _ hnone => exact ⟨h, by simp, hnone, ReflTransGen.refl⟩
  | case2 fresh h _ p hp above ih =>
    obtain ⟨k, hk, hnone, hreach⟩ := ih hback
    exact ⟨k, List.mem_cons_of_mem h hk, hnone, ReflTransGen.head hp hreach⟩
  | case3 => simp at hback

private theorem ascend_back_mem {fresh : List Handle} {h m : Handle}
    (hback : (ascend next fresh h).back = some m) :
    m ∉ fresh ∨ m ∈ (ascend next fresh h).path := by
  fun_induction ascend next fresh h with
  | case1 => simp at hback
  | case2 fresh h _ p _ above ih =>
    by_cases hm : m = h
    · exact Or.inr (by simp [hm])
    · rcases ih hback with hnot | hmem
      · exact Or.inl fun hmem => hnot ((List.mem_erase_of_ne hm).mpr hmem)
      · exact Or.inr (List.mem_cons_of_mem h hmem)
  | case3 _ _ hnot =>
    obtain rfl := Option.some.inj hback
    exact Or.inl hnot

end Ascend

theorem dropWhile_ne_append {l l' : List Handle} {m : Handle} (hm : m ∉ l) :
    (l ++ m :: l').dropWhile (· != m) = m :: l' := by
  rw [List.dropWhile_append_of_pos fun a ha => by
    have : a ≠ m := fun heq => hm (heq ▸ ha)
    simpa using this]
  simp

theorem takeWhile_ne_append {l l' : List Handle} {m : Handle} (hm : m ∉ l) :
    (l ++ m :: l').takeWhile (· != m) = l := by
  rw [List.takeWhile_append_of_pos fun a ha => by
    have : a ≠ m := fun heq => hm (heq ▸ ha)
    simpa using this]
  simp

namespace Registry

/-- Whether `p` is the type that a definition names as its parent. -/
def Inherits (r : Registry) (h p : Handle) : Prop :=
  ∃ d parent, r.get? h = some d ∧ d.parent = some parent ∧ r.find? parent = some p ∧
    r.kind? p = some .type

variable {r : Registry}

theorem inherits_iff {h p : Handle} : r.Inherits h p ↔ r.parentType? h = some p := by
  simp only [Inherits, parentType?, Option.bind_eq_some_iff, Option.filter_eq_some_iff, beq_iff_eq]
  constructor
  · rintro ⟨d, parent, hd, hparent, hfind, hkind⟩
    exact ⟨parent, ⟨d, hd, hparent⟩, hfind, hkind⟩
  · rintro ⟨parent, ⟨d, hd, hparent⟩, hfind, hkind⟩
    exact ⟨d, parent, hd, hparent, hfind, hkind⟩

theorem inherits_eq (r : Registry) : r.Inherits = Follows r.parentType? := by
  funext h p
  exact propext inherits_iff

theorem inherits_rightUnique (r : Registry) : Relator.RightUnique r.Inherits := by
  intro h p q hp hq
  exact Option.some.inj ((inherits_iff.mp hp).symm.trans (inherits_iff.mp hq))

theorem Inherits.kind {h p : Handle} (hp : r.Inherits h p) : r.kind? p = some .type := by
  obtain ⟨_, _, _, _, _, hkind⟩ := hp
  exact hkind

theorem Inherits.find?_name {h p : Handle} (hp : r.Inherits h p) :
    r.find? (r.name p) = some p := by
  obtain ⟨_, _, _, _, hfind, _⟩ := hp
  exact find?_name_of_find? hfind

theorem Inherits.mem_handles {h p : Handle} (hp : r.Inherits h p) : p ∈ r.handles := by
  obtain ⟨_, _, _, _, hfind, _⟩ := hp
  exact UiCatalog.Registry.mem_handles.mpr (find?_lt hfind)

theorem kind?_of_parentType? {h p : Handle} (hp : r.parentType? h = some p) :
    r.kind? p = some .type :=
  (inherits_iff.mpr hp).kind

def ascent (r : Registry) (h : Handle) : Ascent :=
  ascend r.parentType? r.handles h

theorem ascent_path_eq_cons {h : Handle} (hh : h ∈ r.handles) :
    ∃ path, (r.ascent h).path = h :: path :=
  ascend_path_eq_cons hh

theorem ascent_nodup (r : Registry) (h : Handle) : (r.ascent h).path.Nodup :=
  ascend_path_nodup r.nodup_handles h

theorem ascent_chain (r : Registry) (h : Handle) :
    ((r.ascent h).path ++ (r.ascent h).back.toList).IsChain r.Inherits := by
  rw [inherits_eq]
  exact ascend_chain r.handles h

theorem ascent_end {h : Handle} (hback : (r.ascent h).back = none) :
    ∃ k, r.parentType? k = none ∧ ReflTransGen r.Inherits h k := by
  obtain ⟨k, _, hnone, hk⟩ := ascend_end hback
  rw [inherits_eq]
  exact ⟨k, hnone, hk⟩

theorem ascent_back_mem {h m : Handle} (hh : h ∈ r.handles) (hback : (r.ascent h).back = some m) :
    m ∈ (r.ascent h).path := by
  obtain ⟨path, hpath⟩ := ascent_path_eq_cons hh
  have hchain := r.ascent_chain h
  have hm : m ∈ r.handles := by
    rw [hback, Option.toList_some, hpath] at hchain
    obtain ⟨k, l, hlast⟩ : ∃ k l, h :: path = l ++ [k] :=
      ⟨_, _, (List.dropLast_append_getLast (List.cons_ne_nil h path)).symm⟩
    rw [hlast, List.append_assoc, List.singleton_append, List.isChain_split] at hchain
    have hstep : r.Inherits k m := List.isChain_pair.mp hchain.2
    exact hstep.mem_handles
  rcases ascend_back_mem hback with hnot | hmem
  · exact absurd hm hnot
  · exact hmem

/-- The end of a way that comes back is a cycle, and the way leads to it. -/
theorem ascent_cycle {h m : Handle} (hh : h ∈ r.handles) (hback : (r.ascent h).back = some m) :
    IsCycle r.Inherits ((r.ascent h).path.dropWhile (· != m)) ∧
      m ∈ (r.ascent h).path.dropWhile (· != m) ∧ ReflTransGen r.Inherits h m := by
  obtain ⟨l, l', hpath, hnot⟩ := List.eq_append_cons_of_mem (ascent_back_mem hh hback)
  have hchain := r.ascent_chain h
  have hnodup := r.ascent_nodup h
  have hhead : ((r.ascent h).path ++ (r.ascent h).back.toList).head? = some h :=
    ascend_head? r.handles h
  rw [hpath] at hnodup
  rw [hback, hpath, Option.toList_some] at hchain hhead
  rw [hpath, dropWhile_ne_append hnot]
  rw [List.append_assoc, List.cons_append, List.isChain_split] at hchain
  refine ⟨(IsCycle.cons_iff m l').mpr ⟨(List.nodup_append.mp hnodup).2.1, hchain.2⟩, by simp, ?_⟩
  refine reflTransGen_last hchain.1 ?_
  cases l with
  | nil => simpa using hhead.symm
  | cons k l =>
    obtain rfl : k = h := by simpa using hhead
    simp

theorem not_reaches_of_back {h m : Handle} (hback : (r.ascent h).back = none)
    (hm : TransGen r.Inherits m m) : ¬ReflTransGen r.Inherits h m := by
  intro hreach
  obtain ⟨k, hnone, hk⟩ := ascent_end hback
  obtain ⟨p, hp⟩ := exists_step r.inherits_rightUnique hm hreach hk
  exact absurd (hnone.symm.trans (inherits_iff.mp hp)) (by simp)

theorem ascents_end_iff :
    (∀ h ∈ r.handles, (r.ascent h).back = none) ↔
      ∀ h, ¬TransGen r.Inherits h h := by
  constructor
  · intro hback h hround
    obtain ⟨_, _, hstep⟩ := TransGen.tail'_iff.mp hround
    have hh : h ∈ r.handles := hstep.mem_handles
    exact not_reaches_of_back (hback h hh) hround ReflTransGen.refl
  · intro hacyclic h hh
    cases hback : (r.ascent h).back with
    | none => rfl
    | some m =>
      obtain ⟨hcycle, hm, _⟩ := ascent_cycle hh hback
      exact absurd (hcycle.transGen hm) (hacyclic m)

end Registry

end UiCatalog
