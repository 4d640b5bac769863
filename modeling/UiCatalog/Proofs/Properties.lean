import Mathlib.Data.List.Induction
import Mathlib.Data.List.Nodup
import UiCatalog.Properties
/-!
# Keys and values of properties

Keys stand in the order in which they were first set, each once, and of a key the last value that is
set counts.
-/

namespace UiCatalog.Properties

/-! ## First appearances -/

private theorem eraseDups_append_singleton (l : List String) (a : String) :
    (l ++ [a]).eraseDups = if a ∈ l then l.eraseDups else l.eraseDups ++ [a] := by
  rw [List.eraseDups_append]
  split
  · simp [List.removeAll, *]
  · simp [List.removeAll, List.eraseDups_cons, *]

private theorem nodup_eraseDups (l : List String) : l.eraseDups.Nodup := by
  induction l using List.reverseRecOn with
  | nil => exact List.nodup_nil
  | append_singleton l a ih =>
    rw [eraseDups_append_singleton]
    split
    · exact ih
    · rename_i hnot
      rw [← List.concat_eq_append]
      exact ih.concat (mt List.mem_eraseDups.mp hnot)

private theorem eraseDups_of_nodup {l : List String} (h : l.Nodup) : l.eraseDups = l := by
  induction l using List.reverseRecOn with
  | nil => rfl
  | append_singleton l a ih =>
    obtain ⟨hl, _, hnot⟩ := List.nodup_append.mp h
    rw [eraseDups_append_singleton, if_neg fun ha => hnot a ha a List.mem_cons_self rfl, ih hl]

/-- First appearances can be taken of parts before they are taken of the whole. -/
theorem eraseDups_append_eraseDups (l l' : List String) :
    (l.eraseDups ++ l'.eraseDups).eraseDups = (l ++ l').eraseDups := by
  induction l' using List.reverseRecOn with
  | nil => simpa using eraseDups_of_nodup (nodup_eraseDups l)
  | append_singleton l' a ih =>
    rw [eraseDups_append_singleton, ← List.append_assoc l, eraseDups_append_singleton (l ++ l')]
    by_cases ha : a ∈ l'
    · rw [if_pos ha, if_pos (List.mem_append_right l ha), ih]
    · have hmem : a ∈ l.eraseDups ++ l'.eraseDups ↔ a ∈ l ++ l' := by
        simp only [List.mem_append, List.mem_eraseDups]
      rw [if_neg ha, ← List.append_assoc, eraseDups_append_singleton, ih]
      simp only [hmem]

/-! ## Keys -/

theorem nodup_keys_nil : (keys []).Nodup :=
  List.nodup_nil

private theorem keys_set (ps : Properties) (key value : String) :
    (ps.set key value).keys = if key ∈ ps.keys then ps.keys else ps.keys ++ [key] := by
  induction ps with
  | nil => rfl
  | cons p ps ih =>
    obtain ⟨k, v⟩ := p
    have hkeys (v : String) (ps : Properties) : keys ((k, v) :: ps) = k :: ps.keys := rfl
    rw [set, hkeys]
    by_cases hset : k = key
    · rw [if_pos hset, hkeys, if_pos (hset ▸ List.mem_cons_self)]
    · rw [if_neg hset, hkeys, ih]
      by_cases hmem : key ∈ keys ps
      · rw [if_pos hmem, if_pos (List.mem_cons_of_mem k hmem)]
      · have hnot : key ∉ k :: keys ps := fun hcons =>
          (List.mem_cons.mp hcons).elim (Ne.symm hset) hmem
        rw [if_neg hmem, if_neg hnot, List.cons_append]

theorem keys_setAll {ps : Properties} (h : ps.keys.Nodup) (later : Properties) :
    (ps.setAll later).keys = (ps.keys ++ later.keys).eraseDups := by
  induction later using List.reverseRecOn with
  | nil => simpa [setAll, keys] using (eraseDups_of_nodup h).symm
  | append_singleton later p ih =>
    obtain ⟨k, v⟩ := p
    have hset : setAll ps (later ++ [(k, v)]) = (setAll ps later).set k v := List.foldl_concat ..
    have hkeys : keys (later ++ [(k, v)]) = keys later ++ [k] := List.map_append
    rw [hset, keys_set, hkeys, ← List.append_assoc, eraseDups_append_singleton, ih]
    simp only [List.mem_eraseDups]

theorem nodup_keys_setAll {ps : Properties} (h : ps.keys.Nodup) (later : Properties) :
    (ps.setAll later).keys.Nodup := by
  rw [keys_setAll h]
  exact nodup_eraseDups _

/-! ## Values -/

private theorem get?_cons (k v : String) (ps : Properties) (key : String) :
    get? ((k, v) :: ps) key = if key = k then some v else get? ps key := by
  rw [get?, List.lookup_cons]
  by_cases hk : key = k
  · simp [hk]
  · have hne : (key == k) = false := beq_eq_false_iff_ne.mpr hk
    simp only [hne, if_neg hk]
    rfl

private theorem get?_set (ps : Properties) (key value k : String) :
    (ps.set key value).get? k = if k = key then some value else ps.get? k := by
  induction ps with
  | nil => exact get?_cons key value [] k
  | cons p ps ih =>
    obtain ⟨k', v⟩ := p
    rw [set]
    by_cases hset : k' = key
    · subst hset
      rw [if_pos rfl, get?_cons, get?_cons]
      split <;> rfl
    · rw [if_neg hset, get?_cons, get?_cons, ih]
      by_cases hk : k = k'
      · rw [if_pos hk, if_pos hk, if_neg fun heq => hset (hk.symm.trans heq)]
      · rw [if_neg hk, if_neg hk]

theorem get?_setAll (ps later : Properties) (key : String) :
    (ps.setAll later).get? key = (List.lookup key later.reverse).or (ps.get? key) := by
  induction later generalizing ps with
  | nil => simp [setAll]
  | cons p later ih =>
    obtain ⟨k, v⟩ := p
    have hset : setAll ps ((k, v) :: later) = setAll (ps.set k v) later := rfl
    have hlast : List.lookup key [(k, v)] = if key = k then some v else none :=
      get?_cons k v [] key
    rw [hset, ih, get?_set, List.reverse_cons, List.lookup_append, Option.or_assoc, hlast]
    congr 1
    split <;> rfl

private theorem get?_eq_none_of_notMem {ps : Properties} {key : String} (h : key ∉ ps.keys) :
    ps.get? key = none := by
  rw [get?, List.lookup_eq_none_iff]
  intro p hp
  simpa using fun heq : key = p.1 => h (heq ▸ List.mem_map_of_mem hp)

theorem lookup_reverse {ps : Properties} (h : ps.keys.Nodup) (key : String) :
    List.lookup key ps.reverse = ps.get? key := by
  induction ps with
  | nil => rfl
  | cons p ps ih =>
    obtain ⟨k, v⟩ := p
    obtain ⟨hnot, hps⟩ := List.nodup_cons.mp h
    have hlast : List.lookup key [(k, v)] = if key = k then some v else none :=
      get?_cons k v [] key
    rw [List.reverse_cons, List.lookup_append, ih hps, get?_cons, hlast]
    by_cases hkey : key = k
    · subst hkey
      rw [if_pos rfl, if_pos rfl, get?_eq_none_of_notMem hnot, Option.none_or]
    · rw [if_neg hkey, if_neg hkey, Option.or_none]

end UiCatalog.Properties
