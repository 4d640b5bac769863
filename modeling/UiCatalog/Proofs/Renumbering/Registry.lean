import Mathlib.Data.List.Nodup
import Mathlib.Data.List.Perm.Basic
import Mathlib.Logic.Equiv.Basic
import UiCatalog.Proofs.Ancestry.Ascent
/-!
# Renumbered registries

Two registries with the same definitions in another order differ by a renumbering of the handles.
Looking up a name, and whatever else is said in terms of names, follows the renumbering.
-/

namespace UiCatalog

private theorem exists_renumbering {α : Type} {l l' : List α} (h : l.Perm l') :
    ∃ σ : Equiv.Perm Nat, ∀ i, l'[σ i]? = l[i]? := by
  induction h with
  | nil => exact ⟨Equiv.refl Nat, fun _ => rfl⟩
  | cons a _ ih =>
    obtain ⟨σ, hσ⟩ := ih
    let up (τ : Equiv.Perm Nat) (i : Nat) : Nat := Nat.casesOn i 0 fun i => τ i + 1
    have hup (τ τ' : Equiv.Perm Nat) (hτ : ∀ i, τ' (τ i) = i) (i : Nat) : up τ' (up τ i) = i := by
      cases i with
      | zero => rfl
      | succ i => exact congrArg Nat.succ (hτ i)
    refine ⟨⟨up σ, up σ.symm, hup σ σ.symm σ.symm_apply_apply,
      hup σ.symm σ σ.apply_symm_apply⟩, fun i => ?_⟩
    cases i with
    | zero => rfl
    | succ i => simpa [up] using hσ i
  | swap a b l =>
    refine ⟨Equiv.swap 0 1, fun i => ?_⟩
    rcases i with _ | _ | i
    · simp
    · simp
    · rw [Equiv.swap_apply_of_ne_of_ne (by omega) (by omega)]
      simp
  | trans _ _ ih ih' =>
    obtain ⟨σ, hσ⟩ := ih
    obtain ⟨τ, hτ⟩ := ih'
    exact ⟨σ.trans τ, fun i => (hτ (σ i)).trans (hσ i)⟩

/-- The definitions of `r` stand in `r'` under the handles that `σ` gives. -/
structure Renumbers (σ : Equiv.Perm Handle) (r r' : Registry) : Prop where
  get? : ∀ h, r'.get? (σ h) = r.get? h
  distinct : r.NamesDistinct
  distinct' : r'.NamesDistinct

theorem exists_renumbers {r r' : Registry} (h : r.definitions.Perm r'.definitions)
    (hr : r.NamesDistinct) : ∃ σ, Renumbers σ r r' := by
  obtain ⟨σ, hσ⟩ := exists_renumbering h
  exact ⟨σ, hσ, hr, (h.map Definition.name).nodup_iff.mp hr⟩

namespace Renumbers

variable {σ : Equiv.Perm Handle} {r r' : Registry}

theorem symm (hσ : Renumbers σ r r') : Renumbers σ.symm r' r := by
  refine ⟨fun h => ?_, hσ.distinct', hσ.distinct⟩
  rw [← hσ.get? (σ.symm h), σ.apply_symm_apply]

theorem name (hσ : Renumbers σ r r') (h : Handle) : r'.name (σ h) = r.name h := by
  rw [Registry.name, Registry.name, hσ.get?]

theorem map_name (hσ : Renumbers σ r r') (hs : List Handle) :
    (hs.map σ).map r'.name = hs.map r.name := by
  rw [List.map_map]
  exact List.map_congr_left fun h _ => hσ.name h

theorem kind? (hσ : Renumbers σ r r') (h : Handle) : r'.kind? (σ h) = r.kind? h := by
  rw [Registry.kind?, Registry.kind?, hσ.get?]

theorem lt_size_iff (hσ : Renumbers σ r r') (h : Handle) : σ h < r'.size ↔ h < r.size := by
  have hiff (r : Registry) (h : Handle) : h < r.size ↔ r.get? h ≠ none := by
    rw [Registry.get?, ne_eq, List.getElem?_eq_none_iff, Nat.not_le]
    rfl
  rw [hiff, hiff, hσ.get?]

theorem find? (hσ : Renumbers σ r r') (name : String) :
    r'.find? name = (r.find? name).map σ := by
  cases hf : r.find? name with
  | some h =>
    obtain ⟨d, hd, rfl⟩ := Registry.get?_of_find? hf
    exact hσ.distinct'.find?_name ((hσ.get? h).trans hd)
  | none =>
    rw [Option.map_none, Registry.find?_eq_none_iff]
    intro d hd hname
    obtain ⟨h', hd'⟩ := List.mem_iff_getElem?.mp hd
    have hmem : d ∈ r.definitions :=
      List.mem_of_getElem? ((hσ.symm.get? h').trans hd')
    exact Registry.find?_eq_none_iff.mp hf d hmem hname

theorem handles (hσ : Renumbers σ r r') : r'.handles.Perm (r.handles.map σ) := by
  refine (List.perm_ext_iff_of_nodup r'.nodup_handles
    (r.nodup_handles.map σ.injective)).mpr fun h => ?_
  obtain ⟨k, rfl⟩ := σ.surjective h
  rw [Registry.mem_handles, hσ.lt_size_iff, List.mem_map_of_injective σ.injective,
    Registry.mem_handles]

theorem lowest? (hσ : Renumbers σ r r') (hs : List Handle) :
    r'.lowest? (hs.map σ) = (r.lowest? hs).map σ := by
  induction hs with
  | nil => rfl
  | cons h hs ih =>
    rw [List.map_cons, Registry.lowest?, Registry.lowest?, ih]
    cases r.lowest? hs with
    | none => rfl
    | some m =>
      simp only [Option.map_some, hσ.name]
      split <;> rfl

theorem parentType? (hσ : Renumbers σ r r') (h : Handle) :
    r'.parentType? (σ h) = (r.parentType? h).map σ := by
  simp only [Registry.parentType?, hσ.get?]
  cases ((r.get? h).bind Definition.parent) with
  | none => rfl
  | some parent =>
    simp only [Option.bind_some, hσ.find?]
    cases r.find? parent with
    | none => rfl
    | some p => simp [Option.filter_some, hσ.kind?, apply_ite (Option.map σ)]

end Renumbers

/-- With distinct names, the lowest handle does not depend on the order of the handles. -/
theorem Registry.NamesDistinct.lowest?_perm {r : Registry} (hr : r.NamesDistinct)
    {hs hs' : List Handle} (hperm : hs.Perm hs') (hlt : ∀ h ∈ hs, h < r.size) :
    r.lowest? hs = r.lowest? hs' := by
  cases hm : r.lowest? hs with
  | none =>
    obtain rfl := lowest?_eq_none_iff.mp hm
    rw [List.nil_perm.mp hperm, lowest?]
  | some m =>
    cases hm' : r.lowest? hs' with
    | none =>
      obtain rfl := lowest?_eq_none_iff.mp hm'
      rw [List.perm_nil.mp hperm] at hm
      simp [lowest?] at hm
    | some m' =>
      obtain ⟨hmem, hle⟩ := lowest?_eq_some hm
      obtain ⟨hmem', hle'⟩ := lowest?_eq_some hm'
      have hname : r.name m = r.name m' :=
        le_antisymm (hle m' (hperm.mem_iff.mpr hmem')) (hle' m (hperm.mem_iff.mp hmem))
      have hd := get?_eq_getElem (hlt m hmem)
      have hd' := get?_eq_getElem (hlt m' (hperm.mem_iff.mpr hmem'))
      rw [name_of_get? hd, name_of_get? hd'] at hname
      rw [hr.eq_of_name hd hd' hname]

end UiCatalog
