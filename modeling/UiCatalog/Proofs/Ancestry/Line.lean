import UiCatalog.Proofs.Ancestry.Cycles
/-!
# Lines of ancestors

A line goes from a type up to one without parent. There is at most one from each type, and if there
is one, then it is the chain of the type.
-/

namespace UiCatalog

open Relation

/-- A way up to where there is no step. -/
inductive IsLine (next : Handle → Option Handle) : List Handle → Prop where
  | root {h : Handle} (hnone : next h = none) : IsLine next [h]
  | step {h p : Handle} {ps : List Handle} (hp : next h = some p) (hps : IsLine next (p :: ps)) :
    IsLine next (h :: p :: ps)

namespace IsLine

variable {next : Handle → Option Handle}

private theorem tail_eq {h : Handle} {l l' : List Handle} (hl : IsLine next (h :: l))
    (hl' : IsLine next (h :: l')) : l = l' := by
  induction l generalizing h l' with
  | nil =>
    cases hl with
    | root hnone =>
      cases hl' with
      | root => rfl
      | step hp => simp [hnone] at hp
  | cons p ps ih =>
    cases hl with
    | step hp hps =>
      cases hl' with
      | root hnone => simp [hnone] at hp
      | step hp' hps' =>
        obtain rfl := Option.some.inj (hp.symm.trans hp')
        rw [ih hps hps']

private theorem exists_root {h : Handle} {l : List Handle} (hl : IsLine next (h :: l)) :
    ∃ k, next k = none ∧ ReflTransGen (Follows next) h k := by
  induction l generalizing h with
  | nil =>
    cases hl with
    | root hnone => exact ⟨h, hnone, ReflTransGen.refl⟩
  | cons p ps ih =>
    cases hl with
    | step hp hps =>
      obtain ⟨k, hnone, hk⟩ := ih hps
      exact ⟨k, hnone, ReflTransGen.head hp hk⟩

theorem ascend_path {fresh : List Handle} {h : Handle} (hback : (ascend next fresh h).back = none) :
    IsLine next (ascend next fresh h).path := by
  fun_induction ascend next fresh h with
  | case1 _ h _ hnone => exact .root hnone
  | case2 fresh h _ p hp above ih =>
    have hline : IsLine next above.path := ih hback
    have hnone : above.back = none := hback
    have hhead : (above.path ++ above.back.toList).head? = some p := ascend_head? (fresh.erase h) p
    rw [hnone, Option.toList_none, List.append_nil] at hhead
    obtain ⟨ps, hps⟩ := List.head?_eq_some_iff.mp hhead
    change IsLine next (h :: above.path)
    rw [hps] at hline ⊢
    exact .step hp hline
  | case3 => simp at hback

end IsLine

namespace Registry

variable {r : Registry}

private theorem ascent_back_of_line {h : Handle} {l : List Handle} (hh : h ∈ r.handles)
    (hl : IsLine r.parentType? (h :: l)) : (r.ascent h).back = none := by
  cases hback : (r.ascent h).back with
  | none => rfl
  | some m =>
    obtain ⟨hcycle, hm, hreach⟩ := ascent_cycle hh hback
    obtain ⟨k, hnone, hk⟩ := hl.exists_root
    rw [← inherits_eq] at hk
    obtain ⟨p, hp⟩ := exists_step r.inherits_rightUnique (hcycle.transGen hm) hreach hk
    exact absurd (hnone.symm.trans (inherits_iff.mp hp)) (by simp)

/-- The chain of a type is its line. -/
theorem chain?_eq_some_iff_isLine {h : Handle} {l : List Handle} :
    (Ancestry.ofRegistry r).chain? h = some (h :: l) ↔
      r.kind? h = some .type ∧ IsLine r.parentType? (h :: l) := by
  rw [Ancestry.chain?_eq_some_iff]
  refine and_congr_right fun hkind => ?_
  obtain ⟨d, hd, _⟩ := kind?_eq_some_iff.mp hkind
  have hh : h ∈ r.handles := mem_handles_of_get? hd
  constructor
  · rintro ⟨hback, hpath⟩
    rw [hpath]
    exact IsLine.ascend_path hback
  · intro hline
    have hback := ascent_back_of_line hh hline
    obtain ⟨path, hpath⟩ := ascent_path_eq_cons hh
    have hway : IsLine r.parentType? (r.ascent h).path := IsLine.ascend_path hback
    rw [hpath] at hway ⊢
    exact ⟨hback, congrArg (h :: ·) (hline.tail_eq hway)⟩

theorem chain?_of_parentType? {h p : Handle} {chain : List Handle}
    (hkind : r.kind? h = some .type) (hp : r.parentType? h = some p)
    (hchain : (Ancestry.ofRegistry r).chain? p = some chain) :
    (Ancestry.ofRegistry r).chain? h = some (h :: chain) := by
  have hhead : chain.head? = some p := by
    obtain ⟨_, _, rfl⟩ := Ancestry.chain?_eq_some_iff.mp hchain
    obtain ⟨path, hpath⟩ := ascent_path_eq_cons (inherits_iff.mpr hp).mem_handles
    rw [hpath, List.head?_cons]
  obtain ⟨above, rfl⟩ := List.head?_eq_some_iff.mp hhead
  exact chain?_eq_some_iff_isLine.mpr ⟨hkind, .step hp (chain?_eq_some_iff_isLine.mp hchain).2⟩

end Registry

end UiCatalog
