import Mathlib.Data.List.Nodup
import Mathlib.Data.String.Basic
import UiCatalog.Registry
/-!
# Looking up in a registry

A name is found at the first handle whose definition bears it. If all names are distinct, that is
the only one, and handles and registered names correspond one to one.
-/

namespace UiCatalog.Registry

variable {r : Registry}

theorem mem_handles {h : Handle} : h ∈ r.handles ↔ h < r.size :=
  List.mem_range

theorem nodup_handles (r : Registry) : r.handles.Nodup :=
  List.nodup_range

theorem get?_eq_some_lt {h : Handle} {d : Definition} (hd : r.get? h = some d) : h < r.size :=
  (List.getElem?_eq_some_iff.mp hd).1

theorem get?_eq_getElem {h : Handle} (hlt : h < r.size) :
    r.get? h = some (r.definitions.get ⟨h, hlt⟩) :=
  List.getElem?_eq_getElem hlt

theorem mem_handles_of_get? {h : Handle} {d : Definition} (hd : r.get? h = some d) :
    h ∈ r.handles :=
  mem_handles.mpr (get?_eq_some_lt hd)

theorem name_of_get? {h : Handle} {d : Definition} (hd : r.get? h = some d) :
    r.name h = d.name := by
  simp [name, hd]

theorem kind?_of_get? {h : Handle} {d : Definition} (hd : r.get? h = some d) :
    r.kind? h = some d.kind := by
  simp [kind?, hd]

theorem kind?_eq_some_iff {h : Handle} {k : Kind} :
    r.kind? h = some k ↔ ∃ d, r.get? h = some d ∧ d.kind = k := by
  simp [kind?]

theorem get?_of_find? {name : String} {h : Handle} (hf : r.find? name = some h) :
    ∃ d, r.get? h = some d ∧ d.name = name := by
  obtain ⟨hlt, hname, _⟩ := List.findIdx?_eq_some_iff_getElem.mp hf
  exact ⟨_, get?_eq_getElem hlt, by simpa using hname⟩

theorem find?_lt {name : String} {h : Handle} (hf : r.find? name = some h) : h < r.size := by
  obtain ⟨d, hd, _⟩ := get?_of_find? hf
  exact get?_eq_some_lt hd

private theorem name_of_find? {name : String} {h : Handle} (hf : r.find? name = some h) :
    r.name h = name := by
  obtain ⟨d, hd, rfl⟩ := get?_of_find? hf
  exact name_of_get? hd

theorem find?_name_of_find? {name : String} {h : Handle} (hf : r.find? name = some h) :
    r.find? (r.name h) = some h := by
  rw [name_of_find? hf, hf]

theorem find?_eq_none_iff {name : String} :
    r.find? name = none ↔ ∀ d ∈ r.definitions, d.name ≠ name := by
  simp [find?]

private theorem exists_find?_of_mem {d : Definition} (hd : d ∈ r.definitions) :
    ∃ h, r.find? d.name = some h := by
  refine Option.ne_none_iff_exists'.mp fun hnone => ?_
  exact find?_eq_none_iff.mp hnone d hd rfl

/-- Whether a name is registered with one of some kinds. -/
def Offers (r : Registry) (name : String) (kinds : List Kind) : Prop :=
  ∃ h k, r.find? name = some h ∧ r.kind? h = some k ∧ k ∈ kinds

def NamesDistinct (r : Registry) : Prop :=
  (r.definitions.map Definition.name).Nodup

theorem NamesDistinct.eq_of_name {h h' : Handle} {d d' : Definition} (hr : r.NamesDistinct)
    (hd : r.get? h = some d) (hd' : r.get? h' = some d') (hname : d.name = d'.name) : h = h' := by
  have hlt : h < (r.definitions.map Definition.name).length := by
    simpa [size] using get?_eq_some_lt hd
  refine (List.getElem?_inj hlt hr).mp ?_
  rw [List.getElem?_map, List.getElem?_map]
  change (r.get? h).map Definition.name = (r.get? h').map Definition.name
  rw [hd, hd', Option.map_some, Option.map_some, hname]

theorem NamesDistinct.find?_name {h : Handle} {d : Definition} (hr : r.NamesDistinct)
    (hd : r.get? h = some d) : r.find? d.name = some h := by
  obtain ⟨h', hf⟩ := exists_find?_of_mem (List.mem_of_getElem? hd)
  obtain ⟨d', hd', hname⟩ := get?_of_find? hf
  rw [hf, hr.eq_of_name hd hd' hname.symm]

theorem lowest?_eq_none_iff {hs : List Handle} : r.lowest? hs = none ↔ hs = [] := by
  cases hs with
  | nil => simp [lowest?]
  | cons h hs =>
    simp only [lowest?, reduceCtorEq, iff_false]
    split
    · simp
    · split <;> simp

theorem lowest?_eq_some {hs : List Handle} {m : Handle} (hm : r.lowest? hs = some m) :
    m ∈ hs ∧ ∀ h ∈ hs, r.name m ≤ r.name h := by
  induction hs generalizing m with
  | nil => simp [lowest?] at hm
  | cons h hs ih =>
    rw [lowest?] at hm
    cases hlow : r.lowest? hs with
    | none =>
      rw [hlow] at hm
      obtain rfl : hs = [] := lowest?_eq_none_iff.mp hlow
      obtain rfl : h = m := Option.some.inj hm
      simp
    | some m' =>
      rw [hlow] at hm
      dsimp only at hm
      obtain ⟨hmem, hle⟩ := ih hlow
      split at hm
      · rename_i hlt
        obtain rfl : m' = m := Option.some.inj hm
        exact ⟨List.mem_cons_of_mem h hmem, List.forall_mem_cons.mpr ⟨hlt.le, hle⟩⟩
      · rename_i hlt
        obtain rfl : h = m := Option.some.inj hm
        have hle' : r.name h ≤ r.name m' := not_lt.mp hlt
        exact ⟨List.mem_cons_self, List.forall_mem_cons.mpr
          ⟨le_refl _, fun k hk => hle'.trans (hle k hk)⟩⟩

end UiCatalog.Registry
