import Mathlib.Data.List.Forall2
import Mathlib.Data.List.TakeWhile
import UiCatalog.Links
import UiCatalog.Proofs.Catalog.Contents
/-!
# Slots

A slot is a place where a definition names another one. Each slot is looked at by itself: it leads
to the definition that is registered under its name if that is of a kind that may stand there, and
otherwise something is reported about it once. The links have the shape of the definition, and the
problems stand in the order of the slots.
-/

namespace UiCatalog

/-- Whether `d` is registered under a name and has the handle `h`: it is the first that bears the
name. -/
structure Registry.Registers (r : Registry) (name : String) (h : Handle) (d : Definition) :
    Prop where
  get? : r.get? h = some d
  bears : d.name = name
  first : ∀ k < h, ∀ e, r.get? k = some e → e.name ≠ name

private theorem Registry.find?_eq_some_iff {r : Registry} {name : String} {h : Handle} :
    r.find? name = some h ↔ ∃ d, r.Registers name h d := by
  constructor
  · intro hf
    obtain ⟨d, hd, hname⟩ := get?_of_find? hf
    obtain ⟨_, _, hfirst⟩ := List.findIdx?_eq_some_iff_getElem.mp hf
    refine ⟨d, hd, hname, fun k hk e he heq => ?_⟩
    obtain ⟨hlt, rfl⟩ := List.getElem?_eq_some_iff.mp he
    exact hfirst k hk (by simpa using heq)
  · rintro ⟨d, hd, hname, hfirst⟩
    obtain ⟨hlt, rfl⟩ := List.getElem?_eq_some_iff.mp hd
    refine List.findIdx?_eq_some_iff_getElem.mpr ⟨hlt, by simpa using hname, fun k hk heq => ?_⟩
    exact hfirst k hk _ (get?_eq_getElem (hk.trans hlt)) (by simpa using heq)

/-! ## The links of slots -/

/-- Whether a reference is what becomes of a name where some kinds may stand. -/
structure Reference.Resolves (r : Registry) (kinds : List Kind) (name : String) (x : Reference) :
    Prop where
  name_eq : x.name = name
  target : ∀ h, x.target = some h ↔ ∃ d, r.Registers name h d ∧ d.kind ∈ kinds

/-- Whether a path is cut before its first backslash or dot. -/
structure CutsExpand (raw head tail : String) : Prop where
  whole : head ++ tail = raw
  plain : ∀ c ∈ head.toList, c ≠ '\\' ∧ c ≠ '.'
  stop : ∀ c ∈ tail.toList.head?, c = '\\' ∨ c = '.'

structure ExpandLink.Resolves (r : Registry) (raw : String) (x : ExpandLink) : Prop where
  raw_eq : x.raw = raw
  cut : CutsExpand raw x.head.name x.tail
  head : x.head.Resolves r [.type] x.head.name

structure TargetLinks.Resolves (r : Registry) (t : Target) (x : TargetLinks) : Prop where
  area : x.area = t.area
  mode : x.mode = t.mode
  queryTypes : List.Forall₂ (Reference.Resolves r [.type]) t.queryTypes x.queryTypes
  expand : Option.Rel (ExpandLink.Resolves r) t.expand x.expand
  table : Option.Rel (Reference.Resolves r [.table]) t.table x.table
  form : Option.Rel (Reference.Resolves r [.form]) t.form x.form
  menu : Option.Rel (Reference.Resolves r [.menu]) t.menu x.menu

/-- Whether links have the shape of a definition, each the link of the slot at its place. -/
structure Links.Resolves (r : Registry) (d : Definition) (l : Links) : Prop where
  children : List.Forall₂ (fun c x => x.kind = c.kind ∧
    x.reference.Resolves r [.command, .menu] c.name) d.children l.children
  target : Option.Rel (TargetLinks.Resolves r) d.target l.target
  typeLinks : List.Forall₂ (fun a => Option.Rel (Reference.Resolves r [.type]) a.typeLink)
    d.attributes l.typeLinks

private theorem splitExpand_cuts (raw : String) :
    CutsExpand raw (splitExpand raw).1 (splitExpand raw).2 := by
  refine ⟨?_, fun c hc => ?_, fun c hc => ?_⟩
  · apply String.toList_injective
    simp [splitExpand, List.takeWhile_append_dropWhile]
  · rw [splitExpand, String.toList_ofList] at hc
    simpa using List.mem_takeWhile_imp hc
  · rw [splitExpand, String.toList_ofList] at hc
    have hstop := List.head?_dropWhile_not (fun c => c != '\\' && c != '.') raw.toList
    rw [Option.mem_def.mp hc] at hstop
    simpa [Decidable.or_iff_not_imp_left] using hstop

private theorem Mention.reference_resolves (r : Registry) (m : Mention) :
    (m.reference r).Resolves r m.accepts m.name := by
  refine ⟨rfl, fun h => ?_⟩
  have htarget : (m.reference r).target = m.target? r := rfl
  rw [htarget, target?_eq_some_iff, Registry.find?_eq_some_iff]
  constructor
  · rintro ⟨⟨d, hd⟩, k, haccepts, hkind⟩
    obtain rfl := Option.some.inj ((Registry.kind?_of_get? hd.get?).symm.trans hkind)
    exact ⟨d, hd, haccepts⟩
  · rintro ⟨d, hd, haccepts⟩
    exact ⟨⟨d, hd⟩, d.kind, haccepts, Registry.kind?_of_get? hd.get?⟩

namespace Links

private theorem forall₂_zipIdx_map {α β : Type} {R : α → β → Prop} {f : α × Nat → β}
    (hf : ∀ q, R q.1 (f q)) (l : List α) (n : Nat) :
    List.Forall₂ R l ((l.zipIdx n).map f) := by
  induction l generalizing n with
  | nil => exact .nil
  | cons a l ih => exact .cons (hf (a, n)) (ih (n + 1))

private theorem rel_map {α β : Type} {R : α → β → Prop} {f : α → β} (hf : ∀ a, R a (f a))
    (o : Option α) : Option.Rel R o (o.map f) := by
  cases o with
  | none => exact .none
  | some a => exact .some (hf a)

private theorem ofTarget_resolves (r : Registry) (t : Target) : (ofTarget r t).Resolves r t where
  area := rfl
  mode := rfl
  queryTypes := forall₂_zipIdx_map (fun q => (Mention.queryType q.2 q.1).reference_resolves r) _ 0
  expand := rel_map (fun raw =>
    ⟨rfl, splitExpand_cuts raw, (Mention.expand raw).reference_resolves r⟩) t.expand
  table := rel_map (fun name => (Mention.table name).reference_resolves r) t.table
  form := rel_map (fun name => (Mention.form name).reference_resolves r) t.form
  menu := rel_map (fun name => (Mention.menu name).reference_resolves r) t.menu

private theorem ofDefinition_resolves (r : Registry) (d : Definition) :
    (ofDefinition r d).Resolves r d where
  children := forall₂_zipIdx_map (fun q => ⟨rfl, (Mention.child q.2 q.1).reference_resolves r⟩) _ 0
  target := rel_map (ofTarget_resolves r) d.target
  typeLinks := List.forall₂_map_right_iff.mpr (List.forall₂_same.mpr fun a _ =>
    rel_map (fun name => (Mention.typeLink a name).reference_resolves r) a.typeLink)

end Links

/-! ## What is reported about slots -/

/-- A place in a definition where another one is named; that of a type link may be empty. -/
inductive Slot where
  | child (index : Nat) (kind : ChildKind) (name : String)
  | queryType (index : Nat) (name : String)
  | expand (raw : String)
  | table (name : String)
  | form (name : String)
  | menu (name : String)
  | typeLink (a : Attribute)

def Target.slots (t : Target) : List Slot :=
  t.queryTypes.zipIdx.map (fun (name, index) => .queryType index name) ++
    (t.expand.map .expand).toList ++ (t.table.map .table).toList ++ (t.form.map .form).toList ++
    (t.menu.map .menu).toList

def Definition.slots (d : Definition) : List Slot :=
  d.children.zipIdx.map (fun (c, index) => .child index c.kind c.name) ++
    (d.target.map Target.slots).getD [] ++ d.attributes.map .typeLink

namespace Slot

def name? : Slot → Option String
  | child _ _ name | queryType _ name | table name | form name | menu name => some name
  | expand raw => some (splitExpand raw).1
  | typeLink a => a.typeLink

def field : Slot → String
  | child index _ _ => s!"children[{index}]"
  | queryType index _ => s!"target.queryTypes[{index}]"
  | expand _ => "target.expand"
  | table _ => "target.table"
  | form _ => "target.form"
  | menu _ => "target.menu"
  | typeLink a => s!"attributes.{a.name}.typeLink"

def kinds : Slot → List Kind
  | child _ _ _ => [.command, .menu]
  | queryType _ _ | expand _ | typeLink _ => [.type]
  | table _ => [.table]
  | form _ => [.form]
  | menu _ => [.menu]

def expected : Slot → String
  | child _ _ _ => "Command or Menu"
  | queryType _ _ | expand _ | typeLink _ => "Type"
  | table _ => "Table"
  | form _ => "Form"
  | menu _ => "Menu"

/-- What is reported about a slot of `subject`: one problem if it is not linked or if a child is of
the other kind than declared, and nothing else. -/
inductive Reported (r : Registry) (o : Options) (subject : String) :
    Slot → List Problem → Prop where
  | linked {s : Slot} {name : String} {h : Handle} {d : Definition} (hname : s.name? = some name)
      (hd : r.Registers name h d) (hkind : d.kind ∈ s.kinds)
      (hdeclared : o.checkChildKinds = true →
        ∀ index kind, s = .child index kind name → d.kind = kind.kind) :
      Reported r o subject s []
  | childMismatch {index : Nat} {kind : ChildKind} {name : String} {h : Handle} {d : Definition}
      (hd : r.Registers name h d) (hkind : d.kind ∈ [.command, .menu])
      (hcheck : o.checkChildKinds = true) (hdeclared : d.kind ≠ kind.kind) :
      Reported r o subject (.child index kind name)
        [⟨subject, .childMismatch s!"children[{index}]" name kind d.kind⟩]
  | typeMismatch {s : Slot} {name : String} {h : Handle} {d : Definition}
      (hname : s.name? = some name) (hd : r.Registers name h d) (hkind : d.kind ∉ s.kinds) :
      Reported r o subject s [⟨subject, .typeMismatch s.field name s.expected d.kind⟩]
  | unresolved {s : Slot} {name : String} (hname : s.name? = some name)
      (hnone : ∀ d ∈ r.definitions, d.name ≠ name) :
      Reported r o subject s [⟨subject, .unresolvedReference s.field name⟩]
  | missing {a : Attribute} (hnone : a.typeLink = none)
      (hlink : a.type ∈ [some .link, some .linkWithRanges, some .status]) :
      Reported r o subject (.typeLink a) [⟨subject, .missingTypeLink a.name⟩]
  | empty {a : Attribute} (hnone : a.typeLink = none)
      (hplain : a.type ∉ [some .link, some .linkWithRanges, some .status]) :
      Reported r o subject (.typeLink a) []

end Slot

/-- Whether problems are what is reported about the slots of a definition, slot by slot. -/
def Definition.Reported (r : Registry) (o : Options) (d : Definition) (ps : List Problem) : Prop :=
  ∃ reports, List.Forall₂ (Slot.Reported r o d.name) d.slots reports ∧ ps = reports.flatten

private theorem Registry.Registers.unique {r : Registry} {name : String} {h k : Handle}
    {d e : Definition} (hd : r.Registers name h d) (he : r.Registers name k e) : d = e := by
  have hh := find?_eq_some_iff.mpr ⟨d, hd⟩
  have hk := find?_eq_some_iff.mpr ⟨e, he⟩
  obtain rfl := Option.some.inj (hh.symm.trans hk)
  exact Option.some.inj (hd.get?.symm.trans he.get?)

private theorem Attribute.isLink_iff {a : Attribute} :
    a.isLink = true ↔ a.type ∈ [some .link, some .linkWithRanges, some .status] := by
  unfold isLink
  cases ht : a.type with
  | none => simp
  | some t => cases t <;> simp [AttributeType.isLink]

namespace Mention

variable {r : Registry} {m : Mention} {h : Handle} {d : Definition}

private theorem problems_of_registers (hd : r.Registers m.name h d) (subject : String) :
    m.problems r subject =
      if d.kind ∈ m.accepts then []
      else [⟨subject, .typeMismatch m.field m.name m.expected d.kind⟩] := by
  have hfind := Registry.find?_eq_some_iff.mpr ⟨d, hd⟩
  simp only [problems, hfind, Option.bind_some, Registry.kind?_of_get? hd.get?]

private theorem problems_of_absent (hnone : ∀ d ∈ r.definitions, d.name ≠ m.name)
    (subject : String) :
    m.problems r subject = [⟨subject, .unresolvedReference m.field m.name⟩] := by
  have hfind : r.find? m.name = none := Registry.find?_eq_none_iff.mpr hnone
  simp only [problems, hfind, Option.bind_none]

private theorem target?_of_registers (hd : r.Registers m.name h d) (hkind : d.kind ∈ m.accepts) :
    m.target? r = some h :=
  target?_eq_some_iff.mpr ⟨Registry.find?_eq_some_iff.mpr ⟨d, hd⟩, d.kind, hkind,
    Registry.kind?_of_get? hd.get?⟩

end Mention

namespace Slot

variable {r : Registry} {o : Options} {subject : String} {s : Slot} {name : String}

def report (r : Registry) (o : Options) (subject : String) : Slot → List Problem
  | child index kind name => Links.childProblems r o subject index ⟨kind, name⟩
  | queryType index name => (Mention.queryType index name).problems r subject
  | expand raw => (Mention.expand raw).problems r subject
  | table name => (Mention.table name).problems r subject
  | form name => (Mention.form name).problems r subject
  | menu name => (Mention.menu name).problems r subject
  | typeLink a => Links.attributeProblems r subject a

def mention (s : Slot) (name : String) : Mention :=
  ⟨s.field, name, s.kinds⟩

@[simp]
theorem mention_expected : (s.mention name).expected = s.expected := by
  cases s <;> simp [mention, Mention.expected, kinds, expected, Kind.keyword]

private theorem report_eq_problems (hname : s.name? = some name)
    (hdeclared : o.checkChildKinds = true → ∀ index kind, s = .child index kind name →
      ∀ h d, r.Registers name h d → d.kind ∈ s.kinds → d.kind = kind.kind) :
    s.report r o subject = (s.mention name).problems r subject := by
  cases s with
  | child index kind childName =>
    obtain rfl : childName = name := Option.some.inj hname
    refine List.append_right_eq_self.mpr ?_
    cases htarget : (Mention.child index ⟨kind, childName⟩).target? r with
    | none => rfl
    | some h =>
      obtain ⟨hfind, k, haccepts, hk⟩ := Mention.target?_eq_some_iff.mp htarget
      obtain ⟨d, hd⟩ := Registry.find?_eq_some_iff.mp hfind
      obtain rfl := Option.some.inj ((Registry.kind?_of_get? hd.get?).symm.trans hk)
      rw [Option.bind_some, hk]
      refine if_neg fun ⟨hcheck, hother⟩ => hother ?_
      exact hdeclared hcheck index kind rfl h d hd haccepts
  | typeLink a =>
    have hlink : a.typeLink = some name := hname
    simp only [report, Links.attributeProblems, hlink]
    rfl
  | queryType | expand | table | form | menu =>
    obtain rfl := Option.some.inj hname
    rfl

private theorem Reported.eq_report {ps : List Problem} (hps : s.Reported r o subject ps) :
    ps = s.report r o subject := by
  cases hps with
  | linked hname hd hkind hdeclared =>
    rw [report_eq_problems hname fun hcheck index kind hs h e he _ =>
      he.unique hd ▸ hdeclared hcheck index kind hs]
    exact ((Mention.problems_of_registers hd subject).trans (if_pos hkind)).symm
  | childMismatch hd hkind hcheck hdeclared =>
    rename_i index kind childName h d
    have htarget : (Mention.child index ⟨kind, childName⟩).target? r = some h :=
      Mention.target?_of_registers hd hkind
    have hmention : (Mention.child index ⟨kind, childName⟩).problems r subject = [] :=
      (Mention.problems_of_registers hd subject).trans (if_pos hkind)
    simp only [report, Links.childProblems, hmention, htarget, Option.bind_some,
      Registry.kind?_of_get? hd.get?, List.nil_append]
    exact (if_pos ⟨hcheck, hdeclared⟩).symm
  | typeMismatch hname hd hkind =>
    rw [report_eq_problems hname fun _ _ _ _ h e he hkinds => absurd (he.unique hd ▸ hkinds) hkind]
    have hmention := (Mention.problems_of_registers (m := s.mention _) hd subject).trans
      (if_neg hkind)
    rw [hmention, mention_expected]
    rfl
  | unresolved hname hnone =>
    rw [report_eq_problems hname fun _ _ _ _ h e he _ =>
      absurd he.bears (hnone e (List.mem_of_getElem? he.get?))]
    exact (Mention.problems_of_absent (m := s.mention _) hnone subject).symm
  | missing hnone hlink =>
    simp only [report, Links.attributeProblems, hnone]
    exact (if_pos (Attribute.isLink_iff.mpr hlink)).symm
  | empty hnone hplain =>
    simp only [report, Links.attributeProblems, hnone]
    exact (if_neg (mt Attribute.isLink_iff.mp hplain)).symm

private theorem exists_reported_of_name (hname : s.name? = some name) :
    ∃ ps, s.Reported r o subject ps := by
  cases hfind : r.find? name with
  | none => exact ⟨_, .unresolved hname (Registry.find?_eq_none_iff.mp hfind)⟩
  | some h =>
    obtain ⟨d, hd⟩ := Registry.find?_eq_some_iff.mp hfind
    by_cases hkind : d.kind ∈ s.kinds
    · by_cases hdeclared : o.checkChildKinds = true →
          ∀ index kind, s = .child index kind name → d.kind = kind.kind
      · exact ⟨_, .linked hname hd hkind hdeclared⟩
      · push Not at hdeclared
        obtain ⟨hcheck, index, kind, rfl, hother⟩ := hdeclared
        exact ⟨_, .childMismatch hd hkind hcheck hother⟩
    · exact ⟨_, .typeMismatch hname hd hkind⟩

private theorem reported_iff {ps : List Problem} :
    s.Reported r o subject ps ↔ ps = s.report r o subject := by
  refine ⟨Reported.eq_report, ?_⟩
  rintro rfl
  have hsome : ∃ ps, s.Reported r o subject ps := by
    cases hname : s.name? with
    | some name => exact exists_reported_of_name hname
    | none =>
      cases s with
      | typeLink a =>
        by_cases hlink : a.type ∈ [some .link, some .linkWithRanges, some .status]
        · exact ⟨_, .missing hname hlink⟩
        · exact ⟨_, .empty hname hlink⟩
      | child | queryType | expand | table | form | menu => cases hname
  obtain ⟨ps, hps⟩ := hsome
  exact hps.eq_report ▸ hps

end Slot

namespace Links

variable (r : Registry) (o : Options)

private theorem targetMentions_problems (t : Target) (subject : String) :
    (targetMentions t).flatMap (·.problems r subject) =
      t.slots.flatMap (Slot.report r o subject) := by
  have hone (place : String → Slot) (mention : String → Mention)
      (hplace : ∀ name, (place name).report r o subject = (mention name).problems r subject)
      (name : Option String) :
      (name.map mention).toList.flatMap (·.problems r subject) =
        (name.map place).toList.flatMap (Slot.report r o subject) := by
    cases name <;> simp [hplace]
  simp only [targetMentions, Target.slots, List.flatMap_append, List.flatMap_map,
    hone .expand .expand fun _ => rfl, hone .table .table fun _ => rfl,
    hone .form .form fun _ => rfl, hone .menu .menu fun _ => rfl]
  rfl

theorem problems_eq_flatMap (d : Definition) :
    problems r o d = d.slots.flatMap (Slot.report r o d.name) := by
  simp only [problems, Definition.slots, List.flatMap_append, List.flatMap_map]
  congr 2
  cases d.target with
  | none => rfl
  | some t => exact targetMentions_problems r o t d.name

/-- Each slot of a definition is linked at its place if and only if what it names is registered
with a kind that may stand there, and the problems are the ones of the slots, in their order. -/
theorem ofDefinition_exact (d : Definition) :
    (ofDefinition r d).Resolves r d ∧ ∀ ps, d.Reported r o ps ↔ ps = problems r o d := by
  refine ⟨ofDefinition_resolves r d, fun ps => ?_⟩
  have hreports (reports : List (List Problem)) :
      List.Forall₂ (Slot.Reported r o d.name) d.slots reports ↔
        reports = d.slots.map (Slot.report r o d.name) := by
    have hflip : Slot.Reported r o d.name = fun s ps => Slot.report r o d.name s = ps := by
      funext s ps
      exact propext (Slot.reported_iff.trans eq_comm)
    rw [hflip, ← List.forall₂_map_left_iff, List.forall₂_eq_eq_eq, eq_comm]
  simp only [Definition.Reported, hreports, exists_eq_left, problems_eq_flatMap, List.flatMap_def]

end Links

end UiCatalog
