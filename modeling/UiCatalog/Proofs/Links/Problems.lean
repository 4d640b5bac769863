import Mathlib.Tactic.MkIffOfInductiveProp
import UiCatalog.Proofs.Catalog.Contents
/-!
# When links have no problems

A definition has no problems with its links if and only if each name it mentions is registered with
a kind that may stand there, and each attribute that needs a type link has one.
-/

namespace UiCatalog

/-- Whether all names in a target are offered with the kind that may stand there. -/
@[mk_iff]
structure Target.Linked (offers : String → List Kind → Prop) (t : Target) : Prop where
  queryTypes : ∀ name ∈ t.queryTypes, offers name [.type]
  expand : ∀ raw, t.expand = some raw → offers (splitExpand raw).1 [.type]
  table : ∀ name, t.table = some name → offers name [.table]
  form : ∀ name, t.form = some name → offers name [.form]
  menu : ∀ name, t.menu = some name → offers name [.menu]

theorem Target.linked_empty (offers : String → List Kind → Prop) : empty.Linked offers := by
  constructor <;> simp [empty]

private theorem Mention.problems_eq_nil_iff {m : Mention} {r : Registry} {subject : String} :
    m.problems r subject = [] ↔ r.Offers m.name m.accepts := by
  unfold problems Registry.Offers
  cases hf : r.find? m.name with
  | none => simp
  | some h =>
    rw [Option.bind_some]
    cases hk : r.kind? h with
    | none => simp [hk]
    | some k => simp [hk]

namespace Links

variable {r : Registry} {o : Options} {subject : String}

def childKinds (o : Options) (declared : ChildKind) : List Kind :=
  if o.checkChildKinds then [declared.kind] else [.command, .menu]

theorem navigable_of_mem_childKinds {declared : ChildKind} {k : Kind}
    (hk : k ∈ childKinds o declared) : k ∈ [Kind.command, Kind.menu] := by
  unfold childKinds at hk
  split at hk
  · obtain rfl := List.mem_singleton.mp hk
    cases declared <;> simp [ChildKind.kind]
  · exact hk

private theorem childProblems_eq_nil_iff {index : Nat} {c : Child} :
    childProblems r o subject index c = [] ↔ r.Offers c.name (childKinds o c.kind) := by
  unfold childProblems
  dsimp only
  rw [List.append_eq_nil_iff, Mention.problems_eq_nil_iff]
  constructor
  · rintro ⟨⟨h, k, hf, hk, haccepts⟩, hmismatch⟩
    have htarget : (Mention.child index c).target? r = some h :=
      Mention.target?_eq_some_iff.mpr ⟨hf, k, haccepts, hk⟩
    rw [htarget, Option.bind_some, hk] at hmismatch
    refine ⟨h, k, hf, hk, ?_⟩
    unfold childKinds
    split
    · simp_all
    · exact haccepts
  · rintro ⟨h, k, hf, hk, hkinds⟩
    have htarget : (Mention.child index c).target? r = some h :=
      Mention.target?_eq_some_iff.mpr ⟨hf, k, navigable_of_mem_childKinds hkinds, hk⟩
    refine ⟨⟨h, k, hf, hk, navigable_of_mem_childKinds hkinds⟩, ?_⟩
    rw [htarget, Option.bind_some, hk]
    unfold childKinds at hkinds
    split at hkinds <;> simp_all

private theorem attributeProblems_eq_nil_iff {a : Attribute} :
    attributeProblems r subject a = [] ↔
      (∀ link, a.typeLink = some link → r.Offers link [.type]) ∧
        (a.isLink → a.typeLink ≠ none) := by
  unfold attributeProblems
  cases hlink : a.typeLink with
  | some link => simp [Mention.problems_eq_nil_iff, Mention.typeLink]
  | none => simp

private theorem forall_mem_zipIdx_fst {α : Type} {l : List α} {P : α → Prop} :
    (∀ q ∈ l.zipIdx, P q.1) ↔ ∀ a ∈ l, P a := by
  constructor
  · intro h a ha
    obtain ⟨i, hi⟩ := List.mem_iff_getElem?.mp ha
    exact h (a, i) (List.mk_mem_zipIdx_iff_getElem?.mpr hi)
  · exact fun h q hq => h q.1 (List.fst_mem_of_mem_zipIdx hq)

private theorem targetMentions_problems_eq_nil_iff {t : Target} :
    (∀ m ∈ targetMentions t, m.problems r subject = []) ↔ t.Linked r.Offers := by
  have hone {place : String → Mention} {name : Option String} :
      (∀ m ∈ (name.map place).toList, m.problems r subject = []) ↔
        ∀ n, name = some n → r.Offers (place n).name (place n).accepts := by
    cases name <;> simp [Mention.problems_eq_nil_iff]
  have hqueries : (∀ q ∈ t.queryTypes.zipIdx, (Mention.queryType q.2 q.1).problems r subject = []) ↔
      ∀ name ∈ t.queryTypes, r.Offers name [.type] := by
    simp only [Mention.problems_eq_nil_iff]
    exact forall_mem_zipIdx_fst (P := fun name => r.Offers name [.type])
  rw [Target.linked_iff, ← hqueries]
  simp only [targetMentions, List.forall_mem_append, List.forall_mem_map, hone, and_assoc]
  rfl

/-- What a definition needs for its links to have no problems. -/
theorem problems_eq_nil_iff {d : Definition} :
    problems r o d = [] ↔
      (∀ c ∈ d.children, r.Offers c.name (childKinds o c.kind)) ∧
      (∀ t, d.target = some t → t.Linked r.Offers) ∧
      ∀ a ∈ d.attributes, (∀ link, a.typeLink = some link → r.Offers link [.type]) ∧
        (a.isLink → a.typeLink ≠ none) := by
  have hchildren : (∀ q ∈ d.children.zipIdx, childProblems r o d.name q.2 q.1 = []) ↔
      ∀ c ∈ d.children, r.Offers c.name (childKinds o c.kind) := by
    simp only [childProblems_eq_nil_iff]
    exact forall_mem_zipIdx_fst (P := fun c : Child => r.Offers c.name (childKinds o c.kind))
  have htarget : ((d.target.map targetMentions).getD []).flatMap (·.problems r d.name) = [] ↔
      ∀ t, d.target = some t → ∀ m ∈ targetMentions t, m.problems r d.name = [] := by
    cases d.target <;> simp [List.flatMap_eq_nil_iff]
  rw [← hchildren]
  simp only [problems, List.append_eq_nil_iff, htarget, targetMentions_problems_eq_nil_iff,
    List.flatMap_eq_nil_iff, attributeProblems_eq_nil_iff, and_assoc]

end Links

end UiCatalog
