import Mathlib.Data.List.Nodup
import UiCatalog.Proofs.Definition.Head
import UiCatalog.Proofs.Properties
/-!
# Well stated blocks

A block is well stated if each statement may stand in it, says something that can be taken in, and
says once what can be said once. Then and only then nothing is reported about its statements, and
its definition holds exactly what they say.
-/

namespace UiCatalog

namespace Statement

/-- The words of the statements that a block may make once. -/
def onceKeywords : List String :=
  ["setUUID", "setParentType", "addIcon", "addTargetTable", "addTargetForm", "addTargetMenu"]

@[simp] def uuid? : Statement → Option Uuid
  | .setUuid text => (Uuid.parse (Text.trim text)).toOption
  | _ => none

@[simp] def parent? : Statement → Option String
  | .setParent name => some name
  | _ => none

@[simp] def icon? : Statement → Option String
  | .addIcon icon => some icon
  | _ => none

@[simp] def table? : Statement → Option String
  | .addTargetTable name => some name
  | _ => none

@[simp] def form? : Statement → Option String
  | .addTargetForm name => some name
  | _ => none

@[simp] def menu? : Statement → Option String
  | .addTargetMenu name => some name
  | _ => none

@[simp] def property? : Statement → Option (String × String)
  | .addProperty key value => some (key, value)
  | _ => none

@[simp] def attribute? : Statement → Option Attribute
  | .addAttribute name body => some (Attribute.ofBody name body).1
  | _ => none

@[simp] def attributeName? : Statement → Option String
  | .addAttribute name _ => some name
  | _ => none

@[simp] def child? : Statement → Option Child
  | .addChild kind name => some ⟨kind, name⟩
  | _ => none

variable {s : Statement} {name : String}

theorem parent?_eq_some_iff : s.parent? = some name ↔ s = .setParent name := by
  cases s <;> simp

theorem table?_eq_some_iff : s.table? = some name ↔ s = .addTargetTable name := by
  cases s <;> simp

theorem form?_eq_some_iff : s.form? = some name ↔ s = .addTargetForm name := by
  cases s <;> simp

theorem menu?_eq_some_iff : s.menu? = some name ↔ s = .addTargetMenu name := by
  cases s <;> simp

theorem child?_eq_some_iff {c : Child} : s.child? = some c ↔ s = .addChild c.kind c.name := by
  cases c
  cases s <;> simp

end Statement

/-- Whether nothing in a block is out of place, repeated or no UUID. -/
structure Block.WellStated (b : Block) : Prop where
  allowed : ∀ s ∈ b.statements, s.allowedIn b.kind
  once : ∀ word ∈ Statement.onceKeywords, (b.statements.map Statement.keyword).count word ≤ 1
  fields : ∀ name body, .addAttribute name body ∈ b.statements →
    (body.map FieldStatement.field).Nodup
  uuids : ∀ text, .setUuid text ∈ b.statements → ∃ uuid, Uuid.parse (Text.trim text) = .ok uuid

namespace Attribute

private theorem has_set (a : Attribute) (s : FieldStatement) (field : Field) :
    (a.set s).has field = (a.has field || s.field == field) := by
  obtain ⟨f, value⟩ := s
  cases f <;> cases field <;> simp [set, has]

/-- Nothing is reported about a body if and only if it sets no field that is set already. -/
theorem applyAll_misuses_eq_nil_iff {a : Attribute} {body : List FieldStatement} :
    (a.applyAll body).2 = [] ↔
      (body.map FieldStatement.field).Nodup ∧ ∀ s ∈ body, a.has s.field = false := by
  induction body generalizing a with
  | nil => simp [applyAll]
  | cons s body ih =>
    rw [applyAll, List.append_eq_nil_iff, ih, List.map_cons, List.nodup_cons]
    cases hhas : a.has s.field with
    | true => simp [apply, hhas]
    | false =>
      have hnot : s.field ∉ body.map FieldStatement.field ↔
          ∀ s' ∈ body, (s.field == s'.field) = false := by
        simp only [List.mem_map, not_exists, not_and, beq_eq_false_iff_ne, ne_eq]
        exact forall₂_congr fun s' _ => not_congr eq_comm
      simp only [apply, hhas, Bool.false_eq_true, if_false, has_set, Bool.or_eq_false_iff, hnot,
        List.forall_mem_cons, true_and]
      constructor
      · rintro ⟨hnodup, hbody⟩
        exact ⟨⟨fun s' hs' => (hbody s' hs').2, hnodup⟩, fun s' hs' => (hbody s' hs').1⟩
      · rintro ⟨⟨hne, hnodup⟩, hbody⟩
        exact ⟨hnodup, fun s' hs' => ⟨hbody s' hs', hne s' hs'⟩⟩

theorem ofBody_misuses_eq_nil_iff {name : String} {body : List FieldStatement} :
    (ofBody name body).2 = [] ↔ (body.map FieldStatement.field).Nodup := by
  rw [ofBody, applyAll_misuses_eq_nil_iff, and_iff_left]
  intro s _
  cases s.field <;> rfl

end Attribute

namespace Definition

private theorem setOnce_eq_nil_iff {α : Type} {keyword : String} {old : Option α} {new : α} :
    (setOnce keyword old new).2 = [] ↔ old = none := by
  cases old <;> simp [setOnce]

namespace Draft

def holds (d : Draft) (word : String) : Bool :=
  match word with
  | "setUUID" => d.definition.uuid.isSome
  | "setParentType" => d.definition.parent.isSome
  | "addIcon" => d.definition.icon.isSome
  | "addTargetTable" => d.target.table.isSome
  | "addTargetForm" => d.target.form.isSome
  | "addTargetMenu" => d.target.menu.isSome
  | _ => false

/-- Whether a statement says something that can be taken in. -/
def Sayable : Statement → Prop
  | .setUuid text => ∃ uuid, Uuid.parse (Text.trim text) = .ok uuid
  | .addAttribute _ body => (body.map FieldStatement.field).Nodup
  | _ => True

theorem apply_misuses_eq_nil_iff {d : Draft} {s : Statement} :
    (d.apply s).2 = [] ↔ Sayable s ∧ d.holds s.keyword = false := by
  cases s with
  | setUuid text =>
    simp only [apply, Sayable, holds, Statement.keyword]
    cases Uuid.parse (Text.trim text) with
    | ok uuid => simp [setOnce_eq_nil_iff]
    | error reason => simp
  | addAttribute name body =>
    simp [apply, Sayable, holds, Statement.keyword, Attribute.ofBody_misuses_eq_nil_iff]
  | addProperty | addChild => simp [apply, Sayable, holds, Statement.keyword]
  | _ => simp [apply, Sayable, holds, Statement.keyword, setOnce_eq_nil_iff]

private theorem holds_apply {d : Draft} {s : Statement} (h : (d.apply s).2 = []) {word : String}
    (hword : word ∈ Statement.onceKeywords) :
    (d.apply s).1.holds word = (d.holds word || s.keyword == word) := by
  have hsome {α : Type} (keyword : String) (old : Option α) (new : α) :
      (setOnce keyword old new).1.isSome = true := by
    cases old <;> rfl
  simp only [Statement.onceKeywords, List.mem_cons, List.not_mem_nil, or_false] at hword
  cases s with
  | setUuid text =>
    obtain ⟨⟨uuid, hparse⟩, _⟩ := apply_misuses_eq_nil_iff.mp h
    rcases hword with rfl | rfl | rfl | rfl | rfl | rfl <;>
      simp [apply, holds, Statement.keyword, hparse, hsome]
  | _ =>
    rcases hword with rfl | rfl | rfl | rfl | rfl | rfl <;>
      simp [apply, holds, Statement.keyword, hsome]

private theorem holds_of_notMem (d : Draft) {word : String}
    (hword : word ∉ Statement.onceKeywords) : d.holds word = false := by
  unfold holds
  split <;> first | rfl | exact absurd (by decide) hword

private theorem count_add_holds_apply {d : Draft} {s : Statement} {words : List String}
    (h : (d.apply s).2 = []) {word : String} (hword : word ∈ Statement.onceKeywords) :
    words.count word + ((d.apply s).1.holds word).toNat =
      (s.keyword :: words).count word + (d.holds word).toNat := by
  rw [holds_apply h hword, List.count_cons]
  by_cases heq : s.keyword = word
  · have hfree : d.holds word = false := heq ▸ (apply_misuses_eq_nil_iff.mp h).2
    simp [heq, hfree]
  · have hne : (s.keyword == word) = false := beq_eq_false_iff_ne.mpr heq
    simp [hne]

private theorem applyAll_misuses_eq_nil_iff {d : Draft} {ss : List Statement} :
    (d.applyAll ss).2 = [] ↔
      (∀ s ∈ ss, s.allowedIn d.definition.kind = true ∧ Sayable s) ∧
      ∀ word ∈ Statement.onceKeywords,
        (ss.map Statement.keyword).count word + (d.holds word).toNat ≤ 1 := by
  induction ss generalizing d with
  | nil =>
    simp only [applyAll, List.not_mem_nil, false_implies, implies_true, List.map_nil,
      List.count_nil, Nat.zero_add, true_and, true_iff]
    exact fun word _ => Bool.toNat_le (d.holds word)
  | cons s ss ih =>
    by_cases hallowed : s.allowedIn d.definition.kind = true
    · rw [applyAll, if_pos hallowed, List.append_eq_nil_iff, ih, (d.sameHead_apply s).kind]
      simp only [List.forall_mem_cons, hallowed, true_and, List.map_cons]
      constructor
      · rintro ⟨hs, hss, hcount⟩
        refine ⟨⟨(apply_misuses_eq_nil_iff.mp hs).1, hss⟩, fun word hword => ?_⟩
        rw [← count_add_holds_apply hs hword]
        exact hcount word hword
      · rintro ⟨⟨hsayable, hss⟩, hcount⟩
        have hfree : d.holds s.keyword = false := by
          by_cases hword : s.keyword ∈ Statement.onceKeywords
          · have hle := hcount _ hword
            cases hholds : d.holds s.keyword with
            | false => rfl
            | true => simp [hholds] at hle
          · exact d.holds_of_notMem hword
        have hs := apply_misuses_eq_nil_iff.mpr ⟨hsayable, hfree⟩
        refine ⟨hs, hss, fun word hword => ?_⟩
        rw [count_add_holds_apply hs hword]
        exact hcount word hword
    · rw [applyAll, if_neg hallowed]
      simp only [reduceCtorEq, List.forall_mem_cons, false_iff, not_and]
      exact fun h => absurd h.1.1 hallowed

end Draft

end Definition

/-- Nothing is reported about a block's statements if and only if it is well stated. -/
theorem Block.misuses_eq_nil_iff (separator : Char) {b : Block} :
    (Definition.ofBlock separator b).2 = [] ↔ b.WellStated := by
  have hbare (word : String) : Definition.Draft.holds
      ⟨Definition.bare b.kind b.name b.origin, Target.empty⟩ word = false := by
    unfold Definition.Draft.holds
    split <;> rfl
  change (Definition.Draft.applyAll _ _).2 = [] ↔ _
  rw [Definition.Draft.applyAll_misuses_eq_nil_iff]
  simp only [hbare, Bool.toNat_false, Nat.add_zero]
  constructor
  · rintro ⟨hstatements, honce⟩
    exact ⟨fun s hs => (hstatements s hs).1, honce, fun name body hs => (hstatements _ hs).2,
      fun text hs => (hstatements _ hs).2⟩
  · rintro ⟨hallowed, honce, hfields, huuids⟩
    refine ⟨fun s hs => ⟨hallowed s hs, ?_⟩, honce⟩
    cases s with
    | setUuid text => exact huuids text hs
    | addAttribute name body => exact hfields name body hs
    | _ => trivial

end UiCatalog
