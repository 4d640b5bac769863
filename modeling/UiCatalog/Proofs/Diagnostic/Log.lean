import Mathlib.Data.List.Nodup
import Mathlib.Data.List.Perm.Basic
import UiCatalog.Diagnostic
/-!
# Closing a log

Of the entries with one key the first is kept. If entries with one key are equal, then closing keeps
every entry, once, and so what is kept depends on the order of the entries only in its own order.
-/

namespace UiCatalog.Diagnostic

theorem firsts_sublist (seen : List Key) (ds : List Diagnostic) : (firsts seen ds).Sublist ds := by
  fun_induction firsts seen ds with
  | case1 => exact List.Sublist.refl []
  | case2 seen d ds _ ih => exact ih.cons d
  | case3 seen d ds _ ih => exact ih.cons_cons d

private theorem key_notMem_of_mem_firsts {seen : List Key} {ds : List Diagnostic} {d : Diagnostic}
    (hd : d ∈ firsts seen ds) : d.key ∉ seen := by
  fun_induction firsts seen ds with
  | case1 => simp at hd
  | case2 seen _ ds _ ih => exact ih hd
  | case3 seen d' ds hnot ih =>
    rcases List.mem_cons.mp hd with rfl | hd
    · exact hnot
    · exact fun hseen => ih hd (List.mem_cons_of_mem _ hseen)

theorem firsts_keys_nodup (seen : List Key) (ds : List Diagnostic) :
    ((firsts seen ds).map key).Nodup := by
  fun_induction firsts seen ds with
  | case1 => exact List.nodup_nil
  | case2 seen d ds _ ih => exact ih
  | case3 seen d ds _ ih =>
    refine List.nodup_cons.mpr ⟨fun hmem => ?_, ih⟩
    obtain ⟨d', hd', hkey⟩ := List.mem_map.mp hmem
    exact key_notMem_of_mem_firsts hd' (hkey ▸ List.mem_cons_self)

private theorem key_mem_firsts (seen : List Key) {ds : List Diagnostic} {d : Diagnostic}
    (hd : d ∈ ds) : d.key ∈ seen ∨ ∃ d' ∈ firsts seen ds, d'.key = d.key := by
  fun_induction firsts seen ds with
  | case1 => simp at hd
  | case2 seen d' ds hseen ih =>
    rcases List.mem_cons.mp hd with rfl | hd
    · exact Or.inl hseen
    · exact ih hd
  | case3 seen d' ds _ ih =>
    rcases List.mem_cons.mp hd with rfl | hd
    · exact Or.inr ⟨d, List.mem_cons_self, rfl⟩
    · rcases ih hd with hseen | ⟨d'', hmem, hkey⟩
      · rcases List.mem_cons.mp hseen with hkey | hseen
        · exact Or.inr ⟨d', List.mem_cons_self, hkey.symm⟩
        · exact Or.inl hseen
      · exact Or.inr ⟨d'', List.mem_cons_of_mem d' hmem, hkey⟩

/-- What is kept of the entries whose keys have a property does not depend on the others. -/
theorem firsts_filter (P : Key → Bool) (seen : List Key) (ds : List Diagnostic) :
    (firsts seen ds).filter (P ·.key) = firsts (seen.filter P) (ds.filter (P ·.key)) := by
  fun_induction firsts seen ds with
  | case1 => rfl
  | case2 seen d ds hseen ih => cases hkey : P d.key <;> simp [firsts, hkey, hseen, ih]
  | case3 seen d ds hseen ih => cases hkey : P d.key <;> simp [firsts, hkey, hseen, ih]

/-- Entries with one key are equal. -/
def KeysDetermine (ds : List Diagnostic) : Prop :=
  ∀ d ∈ ds, ∀ d' ∈ ds, d.key = d'.key → d = d'

theorem KeysDetermine.mem_firsts_iff {ds : List Diagnostic} (h : KeysDetermine ds)
    {d : Diagnostic} : d ∈ firsts [] ds ↔ d ∈ ds := by
  refine ⟨fun hd => (firsts_sublist [] ds).mem hd, fun hd => ?_⟩
  rcases key_mem_firsts [] hd with hseen | ⟨d', hd', hkey⟩
  · simp at hseen
  · rwa [← h d' ((firsts_sublist [] ds).mem hd') d hd hkey]

/-- If keys determine entries, what is kept are the distinct entries where they first stand. -/
theorem KeysDetermine.firsts_eq_eraseDups {ds : List Diagnostic} (h : KeysDetermine ds)
    (seen : List Key) : firsts seen ds = (ds.filter (·.key ∉ seen)).eraseDups := by
  induction ds generalizing seen with
  | nil => rfl
  | cons d ds ih =>
    have htail : KeysDetermine ds := fun d₁ h₁ d₂ h₂ =>
      h d₁ (List.mem_cons_of_mem d h₁) d₂ (List.mem_cons_of_mem d h₂)
    rw [firsts]
    split
    · rename_i hseen
      rw [ih htail, List.filter_cons_of_neg (by simpa using hseen)]
    · rename_i hnew
      rw [ih htail, List.filter_cons_of_pos (by simpa using hnew), List.eraseDups_cons,
        List.filter_filter]
      refine congrArg (fun l => d :: l.eraseDups) (List.filter_congr fun d' hd' => ?_)
      have hkey : d'.key = d.key ↔ d' = d :=
        ⟨h d' (List.mem_cons_of_mem d hd') d List.mem_cons_self, congrArg key⟩
      rw [Bool.eq_iff_iff]
      simp [List.mem_cons, not_or, hkey]

theorem KeysDetermine.firsts_perm {ds ds' : List Diagnostic} (h : KeysDetermine ds)
    (hmem : ∀ d, d ∈ ds ↔ d ∈ ds') : (firsts [] ds).Perm (firsts [] ds') := by
  have h' : KeysDetermine ds' := fun d hd d' hd' =>
    h d ((hmem d).mpr hd) d' ((hmem d').mpr hd')
  refine (List.perm_ext_iff_of_nodup (firsts_keys_nodup [] ds).of_map
    (firsts_keys_nodup [] ds').of_map).mpr fun d => ?_
  rw [h.mem_firsts_iff, h'.mem_firsts_iff, hmem]

end UiCatalog.Diagnostic
