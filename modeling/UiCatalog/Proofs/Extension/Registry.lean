import UiCatalog.Proofs.Ancestry.Ascent
import UiCatalog.Proofs.Links.Slots
/-!
# One more definition

A definition that comes last changes nothing under the other handles, and if no other one bears its
name then every other name is found as before. So whatever mentions other names only resolves as
before.
-/

namespace UiCatalog

theorem filter_append_eq_left {α : Type} {p : α → Bool} {l l' : List α} (hl : ∀ a ∈ l, p a = true)
    (hl' : ∀ a ∈ l', p a = false) : (l ++ l').filter p = l := by
  have hnone : l'.filter p = [] := List.filter_eq_nil_iff.mpr fun a ha => by simp [hl' a ha]
  rw [List.filter_append, List.filter_eq_self.mpr hl, hnone, List.append_nil]

/-- The names that a definition mentions, its parent first. -/
def Definition.mentioned (d : Definition) : List String :=
  d.parent.toList ++ d.slots.filterMap Slot.name?

namespace Registry

def extend (r : Registry) (d : Definition) : Registry :=
  ⟨r.definitions ++ [d]⟩

/-- Whether no definition of a registry bears or mentions the name of a new one. -/
structure Unknown (r : Registry) (d : Definition) : Prop where
  free : ∀ e ∈ r.definitions, e.name ≠ d.name
  unmentioned : ∀ e ∈ r.definitions, d.name ∉ e.mentioned

variable {r : Registry} {d : Definition} {h : Handle} {name : String}

theorem size_extend (r : Registry) (d : Definition) : (r.extend d).size = r.size + 1 := by
  simp [size, extend]

theorem handles_extend (r : Registry) (d : Definition) :
    (r.extend d).handles = r.handles ++ [r.size] := by
  rw [handles, size_extend, List.range_succ, handles]

theorem get?_extend (d : Definition) (hne : h ≠ r.size) : (r.extend d).get? h = r.get? h := by
  rcases Nat.lt_or_gt_of_ne hne with hlt | hgt
  · exact List.getElem?_append_left hlt
  · have hlength : r.definitions.length < h := hgt
    have hlast : (r.definitions ++ [d]).length ≤ h := by
      rw [List.length_append, List.length_singleton]
      omega
    rw [get?, get?, List.getElem?_eq_none hlength.le, extend, List.getElem?_eq_none hlast]

theorem get?_extend_size (r : Registry) (d : Definition) : (r.extend d).get? r.size = some d := by
  simp [get?, extend, size]

theorem ne_size_of_get? {e : Definition} (he : r.get? h = some e) : h ≠ r.size :=
  Nat.ne_of_lt (get?_eq_some_lt he)

theorem ne_size_of_find? (hf : r.find? name = some h) : h ≠ r.size :=
  Nat.ne_of_lt (find?_lt hf)

theorem find?_extend (hname : name ≠ d.name) : (r.extend d).find? name = r.find? name := by
  simp [find?, extend, List.findIdx?_append, List.findIdx?_cons, Ne.symm hname]

theorem kind?_extend (d : Definition) (hne : h ≠ r.size) : (r.extend d).kind? h = r.kind? h := by
  rw [kind?, get?_extend d hne, kind?]

theorem name_extend (d : Definition) (hne : h ≠ r.size) : (r.extend d).name h = r.name h := by
  rw [name, get?_extend d hne, name]

theorem name_extend_size (r : Registry) (d : Definition) : (r.extend d).name r.size = d.name :=
  name_of_get? (get?_extend_size r d)

theorem map_name_extend (d : Definition) {hs : List Handle} (hhs : ∀ h ∈ hs, h ≠ r.size) :
    hs.map (r.extend d).name = hs.map r.name :=
  List.map_congr_left fun h hh => name_extend d (hhs h hh)

theorem bind_kind?_extend (hname : name ≠ d.name) :
    ((r.extend d).find? name).bind (r.extend d).kind? = (r.find? name).bind r.kind? := by
  rw [find?_extend hname]
  cases hf : r.find? name with
  | none => rfl
  | some h => exact kind?_extend d (ne_size_of_find? hf)

theorem lowest?_extend (d : Definition) {hs : List Handle} (hhs : ∀ h ∈ hs, h ≠ r.size) :
    (r.extend d).lowest? hs = r.lowest? hs := by
  induction hs with
  | nil => rfl
  | cons h hs ih =>
    obtain ⟨hh, hhs⟩ := List.forall_mem_cons.mp hhs
    rw [lowest?, lowest?, ih hhs]
    cases hlow : r.lowest? hs with
    | none => rfl
    | some m =>
      have hm := hhs m (lowest?_eq_some hlow).1
      simp only [name_extend d hh, name_extend d hm]

theorem fromLowest_extend (d : Definition) {c : List Handle} (hc : ∀ h ∈ c, h ≠ r.size) :
    (r.extend d).fromLowest c = r.fromLowest c := by
  rw [fromLowest, lowest?_extend d hc, fromLowest]

theorem mem_of_mem_fromLowest {c : List Handle} (hh : h ∈ r.fromLowest c) : h ∈ c := by
  unfold fromLowest at hh
  split at hh
  · simp at hh
  · rcases List.mem_append.mp hh with hh | hh
    · exact (List.dropWhile_sublist _).mem hh
    · exact (List.takeWhile_sublist _).mem hh

theorem Unknown.parent_ne {e : Definition} {parent : String} (hd : r.Unknown d)
    (he : e ∈ r.definitions) (hparent : e.parent = some parent) : parent ≠ d.name := by
  rintro rfl
  apply hd.unmentioned e he
  simp [Definition.mentioned, hparent]

theorem Unknown.parentType? (hd : r.Unknown d) (hne : h ≠ r.size) :
    (r.extend d).parentType? h = r.parentType? h := by
  rw [Registry.parentType?, get?_extend d hne, Registry.parentType?]
  cases he : r.get? h with
  | none => rfl
  | some e =>
    rw [Option.bind_some]
    cases hparent : e.parent with
    | none => rfl
    | some parent =>
      have hname := hd.parent_ne (List.mem_of_getElem? he) hparent
      rw [Option.bind_some, Option.bind_some, find?_extend hname]
      cases hf : r.find? parent with
      | none => rfl
      | some p => simp [Option.filter_some, kind?_extend d (ne_size_of_find? hf)]

theorem parentType?_ne_size (h : Handle) : r.parentType? h ≠ some r.size := by
  intro hp
  obtain ⟨_, _, _, _, hf, _⟩ := inherits_iff.mpr hp
  exact ne_size_of_find? hf rfl

end Registry

namespace Mention

variable {r : Registry} {d : Definition} {m : Mention}

theorem target?_extend (hname : m.name ≠ d.name) : m.target? (r.extend d) = m.target? r := by
  rw [target?, Registry.find?_extend hname, target?]
  cases hf : r.find? m.name with
  | none => rfl
  | some h => simp [Option.filter_some, Registry.kind?_extend d (Registry.ne_size_of_find? hf)]

theorem reference_extend (hname : m.name ≠ d.name) :
    m.reference (r.extend d) = m.reference r := by
  rw [reference, target?_extend hname, reference]

theorem map_reference_extend {mention : String → Mention} {names : Option String}
    (hnames : ∀ name ∈ names, (mention name).name ≠ d.name) :
    (names.map fun name => (mention name).reference (r.extend d)) =
      names.map fun name => (mention name).reference r :=
  Option.map_congr fun name hname => reference_extend (hnames name hname)

theorem problems_extend (hname : m.name ≠ d.name) (subject : String) :
    m.problems (r.extend d) subject = m.problems r subject := by
  rw [problems, Registry.bind_kind?_extend hname, problems]

end Mention

end UiCatalog
