import Mathlib.Data.List.Infix
import UiCatalog.Proofs.Definition.Target
/-!
# Every statement is accounted for

Of the statements that may stand in a block its definition keeps the first of each sort that counts
once, the last value of each property and all that add up. What is reported about a statement
follows from those before it, and nothing else is reported.
-/

namespace UiCatalog

/-! ## Bodies of attributes -/

namespace FieldStatement

def first? (body : List FieldStatement) (field : Field) : Option String :=
  (body.find? (·.field == field)).map value

variable {earlier : List FieldStatement} {s : FieldStatement}

private theorem first?_append_of_set (h : ∃ e ∈ earlier, e.field = s.field) (field : Field) :
    first? (earlier ++ [s]) field = first? earlier field := by
  rw [first?, first?, List.find?_append]
  by_cases hfield : s.field = field
  · obtain ⟨e, he, heq⟩ := h
    have hfound : (earlier.find? (·.field == field)).isSome = true :=
      List.find?_isSome.mpr ⟨e, he, by simp [heq, hfield]⟩
    rw [Option.or_of_isSome hfound]
  · simp [hfield]

private theorem first?_append_of_not_set (h : ¬∃ e ∈ earlier, e.field = s.field) (field : Field) :
    first? (earlier ++ [s]) field =
      if s.field = field then some s.value else first? earlier field := by
  rw [first?, first?, List.find?_append]
  by_cases hfield : s.field = field
  · have hnone : earlier.find? (·.field == field) = none :=
      List.find?_eq_none.mpr fun e he heq => h ⟨e, he, by simpa [hfield] using heq⟩
    simp [hnone, hfield]
  · simp [hfield]

end FieldStatement

namespace Attribute

/-- The attribute that has the first value of each field of a body. -/
def ofFirsts (name : String) (body : List FieldStatement) : Attribute where
  name := name
  type := (FieldStatement.first? body .type).map AttributeType.ofTag
  sqlTable := FieldStatement.first? body .sqlTable
  sqlColumn := FieldStatement.first? body .sqlColumn
  typeLink := FieldStatement.first? body .typeLink

/-- What is wrong with a field statement after others of the body of an attribute. -/
def misuses (name : String) (earlier : List FieldStatement) (s : FieldStatement) : List Misuse :=
  if ∃ e ∈ earlier, e.field = s.field then [.repeatedField name s.field.keyword] else []

private theorem has_ofFirsts (name : String) (body : List FieldStatement) (field : Field) :
    (ofFirsts name body).has field = true ↔ ∃ e ∈ body, e.field = field := by
  cases field <;> simp [ofFirsts, has, FieldStatement.first?]

private theorem ofFirsts_apply (name : String) (earlier : List FieldStatement)
    (s : FieldStatement) :
    (ofFirsts name earlier).apply s = (ofFirsts name (earlier ++ [s]), misuses name earlier s) := by
  rw [apply, misuses]
  by_cases hset : ∃ e ∈ earlier, e.field = s.field
  · have hfirst (field : Field) : FieldStatement.first? (earlier ++ [s]) field =
        FieldStatement.first? earlier field :=
      FieldStatement.first?_append_of_set hset field
    rw [if_pos ((has_ofFirsts name earlier s.field).mpr hset), if_pos hset]
    simp only [ofFirsts, hfirst]
  · have hfirst (field : Field) : FieldStatement.first? (earlier ++ [s]) field =
        if s.field = field then some s.value else FieldStatement.first? earlier field :=
      FieldStatement.first?_append_of_not_set hset field
    rw [if_neg (mt (has_ofFirsts name earlier s.field).mp hset), if_neg hset]
    obtain ⟨field, value⟩ := s
    cases field <;> simp [ofFirsts, set, hfirst]

private theorem ofFirsts_applyAll (name : String) (earlier body : List FieldStatement) :
    (ofFirsts name earlier).applyAll body = (ofFirsts name (earlier ++ body),
      (body.inits.zip body).flatMap fun (before, s) => misuses name (earlier ++ before) s) := by
  induction body generalizing earlier with
  | nil => simp [applyAll]
  | cons s body ih =>
    rw [applyAll, ofFirsts_apply, ih, ← List.append_cons, List.inits_cons, List.zip_cons_cons,
      List.zip_map_left, List.flatMap_cons, List.flatMap_map]
    simp

private theorem ofBody_eq (name : String) (body : List FieldStatement) :
    ofBody name body = (ofFirsts name body,
      (body.inits.zip body).flatMap fun (earlier, s) => misuses name earlier s) :=
  ofFirsts_applyAll name [] body

end Attribute

/-! ## Statements of blocks -/

namespace Statement

@[simp] def declared? : Statement → Option Attribute
  | .addAttribute name body => some (Attribute.ofFirsts name body)
  | _ => none

/-- What is wrong with a statement after others of a block. A text that is no UUID does not count as
a UUID that was set. -/
def misuses (kind : Kind) (earlier : List Statement) (s : Statement) : List Misuse :=
  if s.allowedIn kind then
    match s with
    | .setUuid text =>
      match Uuid.parse (Text.trim text) with
      | .ok _ => if ∃ e ∈ earlier, e.uuid?.isSome then [.repeated s.keyword] else []
      | .error reason => [.invalidUuid text reason]
    | .addProperty _ _ | .addChild _ _ => []
    | .addAttribute name body =>
      (body.inits.zip body).flatMap fun (before, s) => Attribute.misuses name before s
    | .setParent _ | .addIcon _ | .addTargetTable _ | .addTargetForm _ | .addTargetMenu _ =>
      if ∃ e ∈ earlier, e.keyword = s.keyword then [.repeated s.keyword] else []
  else [.notAllowed s.keyword kind]

private theorem misuses_of_not_allowed {kind : Kind} {s : Statement} (hs : ¬s.allowedIn kind = true)
    (earlier : List Statement) : s.misuses kind earlier = [.notAllowed s.keyword kind] := by
  unfold misuses
  rw [if_neg hs]

private theorem allowedIn_eq_of_keyword {s s' : Statement} (h : s.keyword = s'.keyword)
    (kind : Kind) : s.allowedIn kind = s'.allowedIn kind := by
  cases s <;> cases s' <;> simp [keyword] at h <;> rfl

private theorem isSome_findSome?_filter {α : Type} {kind : Kind} {f : Statement → Option α}
    {s : Statement} (hs : s.allowedIn kind = true)
    (hf : ∀ e, (f e).isSome = true ↔ e.keyword = s.keyword) (earlier : List Statement) :
    ((earlier.filter (·.allowedIn kind)).findSome? f).isSome = true ↔
      ∃ e ∈ earlier, e.keyword = s.keyword := by
  rw [List.findSome?_isSome_iff]
  constructor
  · rintro ⟨e, he, hsome⟩
    exact ⟨e, (List.mem_filter.mp he).1, (hf e).mp hsome⟩
  · rintro ⟨e, he, hword⟩
    have hallowed : e.allowedIn kind = true := (allowedIn_eq_of_keyword hword kind).trans hs
    exact ⟨e, List.mem_filter.mpr ⟨he, hallowed⟩, (hf e).mpr hword⟩

end Statement

namespace Definition

private theorem setOnce_eq {α : Type} (keyword : String) (old : Option α) (new : α) :
    setOnce keyword old new =
      (old.or (some new), if old.isSome then [.repeated keyword] else []) := by
  cases old <;> rfl

namespace Draft

/-- The draft of a block after some of its statements. -/
def ofStatements (b : Block) (earlier : List Statement) : Draft :=
  let taken := earlier.filter (·.allowedIn b.kind)
  { definition :=
      { kind := b.kind
        name := b.name
        uuid := earlier.findSome? Statement.uuid?
        parent := taken.findSome? Statement.parent?
        properties := Properties.setAll [] (earlier.filterMap Statement.property?)
        attributes := taken.filterMap Statement.declared?
        children := taken.filterMap Statement.child?
        icon := taken.findSome? Statement.icon?
        target := none
        origin := b.origin }
    target :=
      { Target.empty with
        table := taken.findSome? Statement.table?
        form := taken.findSome? Statement.form?
        menu := taken.findSome? Statement.menu? } }

private theorem ofStatements_apply {b : Block} {earlier : List Statement} {s : Statement}
    (hs : s.allowedIn b.kind = true) :
    (ofStatements b earlier).apply s =
      (ofStatements b (earlier ++ [s]), s.misuses b.kind earlier) := by
  have htaken : (earlier ++ [s]).filter (·.allowedIn b.kind) =
      earlier.filter (·.allowedIn b.kind) ++ [s] := by
    rw [List.filter_append, List.filter_cons_of_pos hs, List.filter_nil]
  have honce {α : Type} {f : Statement → Option α}
      (hf : ∀ e, (f e).isSome = true ↔ e.keyword = s.keyword) :
      (if ∃ e ∈ earlier, e.keyword = s.keyword then [Misuse.repeated s.keyword] else []) =
        if ((earlier.filter (·.allowedIn b.kind)).findSome? f).isSome then
          [Misuse.repeated s.keyword] else [] :=
    if_congr (Statement.isSome_findSome?_filter hs hf earlier).symm rfl rfl
  unfold Statement.misuses
  rw [if_pos hs]
  cases s with
  | setUuid text =>
    cases hparse : Uuid.parse (Text.trim text) with
    | ok uuid =>
      dsimp only
      rw [if_congr List.findSome?_isSome_iff.symm rfl rfl]
      simp [apply, ofStatements, htaken, setOnce_eq, List.findSome?_append, List.filterMap_cons,
        hparse, Except.toOption]
    | error reason =>
      simp [apply, ofStatements, htaken, List.findSome?_append, List.filterMap_cons, hparse,
        Except.toOption]
  | setParent name =>
    dsimp only
    rw [honce (f := Statement.parent?) fun e => by cases e <;> simp [Statement.keyword]]
    simp [apply, ofStatements, htaken, setOnce_eq, List.findSome?_append, List.filterMap_cons]
  | addIcon icon =>
    dsimp only
    rw [honce (f := Statement.icon?) fun e => by cases e <;> simp [Statement.keyword]]
    simp [apply, ofStatements, htaken, setOnce_eq, List.findSome?_append, List.filterMap_cons]
  | addTargetTable name =>
    dsimp only
    rw [honce (f := Statement.table?) fun e => by cases e <;> simp [Statement.keyword]]
    simp [apply, ofStatements, htaken, setOnce_eq, List.findSome?_append, List.filterMap_cons]
  | addTargetForm name =>
    dsimp only
    rw [honce (f := Statement.form?) fun e => by cases e <;> simp [Statement.keyword]]
    simp [apply, ofStatements, htaken, setOnce_eq, List.findSome?_append, List.filterMap_cons]
  | addTargetMenu name =>
    dsimp only
    rw [honce (f := Statement.menu?) fun e => by cases e <;> simp [Statement.keyword]]
    simp [apply, ofStatements, htaken, setOnce_eq, List.findSome?_append, List.filterMap_cons]
  | addProperty key value =>
    simp [apply, ofStatements, htaken, List.findSome?_append, Properties.setAll]
  | addAttribute name body =>
    simp [apply, ofStatements, htaken, List.findSome?_append, List.filterMap_cons,
      Attribute.ofBody_eq]
  | addChild kind name =>
    simp [apply, ofStatements, htaken, List.findSome?_append, List.filterMap_cons]

private theorem ofStatements_of_not_allowed {b : Block} {earlier : List Statement} {s : Statement}
    (hs : ¬s.allowedIn b.kind = true) :
    ofStatements b (earlier ++ [s]) = ofStatements b earlier := by
  have htaken : (earlier ++ [s]).filter (·.allowedIn b.kind) =
      earlier.filter (·.allowedIn b.kind) := by
    rw [List.filter_append, List.filter_cons_of_neg hs, List.filter_nil, List.append_nil]
  have huuid : [s].findSome? Statement.uuid? = none := by
    cases s <;> simp [Statement.allowedIn] at hs ⊢
  have hproperty : [s].filterMap Statement.property? = [] := by
    cases s <;> simp [Statement.allowedIn] at hs ⊢
  simp only [ofStatements, htaken, List.findSome?_append, List.filterMap_append, huuid, hproperty,
    Option.or_none, List.append_nil]

private theorem ofStatements_applyAll (b : Block) (earlier ss : List Statement) :
    (ofStatements b earlier).applyAll ss = (ofStatements b (earlier ++ ss),
      (ss.inits.zip ss).flatMap fun (before, s) => s.misuses b.kind (earlier ++ before)) := by
  induction ss generalizing earlier with
  | nil => simp [applyAll]
  | cons s ss ih =>
    have hkind : (ofStatements b earlier).definition.kind = b.kind := rfl
    rw [applyAll, hkind, List.inits_cons, List.zip_cons_cons, List.zip_map_left,
      List.flatMap_cons, List.flatMap_map]
    split
    · rename_i hs
      rw [ofStatements_apply hs]
      dsimp only
      rw [ih, ← List.append_cons]
      simp
    · rename_i hs
      rw [← ofStatements_of_not_allowed hs]
      dsimp only
      rw [ih, ← List.append_cons]
      simp [Statement.misuses_of_not_allowed hs]

end Draft

end Definition

/-! ## Blocks -/

/-- What a definition and reports have to do with a block if each of its statements is accounted
for. -/
structure Block.AccountedFor (separator : Char) (b : Block) (d : Definition)
    (misuses : List Misuse) : Prop where
  kind : d.kind = b.kind
  name : d.name = b.name
  origin : d.origin = b.origin
  uuid : d.uuid = b.statements.findSome? Statement.uuid?
  parent : d.parent = b.taken.findSome? Statement.parent?
  icon : d.icon = b.taken.findSome? Statement.icon?
  /-- Each key stands where it is first set. -/
  keys : d.properties.keys = b.propertyKeys.eraseDups
  /-- The last value of a key counts. -/
  values : ∀ key, d.properties.get? key = b.property? key
  children : d.children = b.taken.filterMap Statement.child?
  attributes : d.attributes = b.taken.filterMap Statement.declared?
  target : ∀ t, d.target = some t ↔
    b.kind.isNavigable = true ∧ b.Opens separator t ∧ t ≠ Target.empty
  noTarget : d.target = none ↔ (b.kind.isNavigable = true → b.OpensNothing separator)
  reports : misuses = (b.statements.inits.zip b.statements).flatMap fun (earlier, s) =>
    s.misuses b.kind earlier

namespace Definition

private theorem ofBlock_eq (separator : Char) (b : Block) :
    ofBlock separator b = ((Draft.ofStatements b b.statements).finish separator,
      (b.statements.inits.zip b.statements).flatMap fun (earlier, s) =>
        s.misuses b.kind earlier) := by
  have hrun := Draft.ofStatements_applyAll b [] b.statements
  have hblank : Draft.ofStatements b [] = ⟨bare b.kind b.name b.origin, Target.empty⟩ := rfl
  rw [hblank] at hrun
  simp only [ofBlock, hrun, List.nil_append]

private theorem ofBlock_target (separator : Char) (b : Block) :
    (ofBlock separator b).1.target =
      if b.kind.isNavigable = true ∧ b.declaredTarget separator ≠ Target.empty then
        some (b.declaredTarget separator)
      else none := by
  have hproperties : (Draft.ofStatements b b.statements).definition.properties =
      (b.definition separator).properties := by
    rw [Block.definition, ofBlock_eq, Draft.properties_finish]
  have hkind : (Draft.ofStatements b b.statements).definition.kind = b.kind := rfl
  have htarget : Target.withProperties (Draft.ofStatements b b.statements).target separator
      (Draft.ofStatements b b.statements).definition.properties = b.declaredTarget separator := by
    rw [hproperties]
    rfl
  rw [ofBlock_eq, Draft.finish, hkind, htarget]
  by_cases hnavigable : b.kind.isNavigable = true
  · simp [hnavigable]
  · simp only [hnavigable, Bool.false_eq_true, if_false, false_and]
    rfl

private theorem finish_eq (d : Draft) (separator : Char) :
    d.finish separator = { d.definition with target := (d.finish separator).target } := by
  unfold Draft.finish
  split <;> rfl

private theorem ofBlock_target_eq_some_iff {separator : Char} {b : Block} {t : Target} :
    (ofBlock separator b).1.target = some t ↔
      b.kind.isNavigable = true ∧ b.Opens separator t ∧ t ≠ Target.empty := by
  rw [ofBlock_target, Block.opens_iff, Option.ite_none_right_eq_some, Option.some.injEq]
  constructor
  · rintro ⟨⟨hnavigable, hne⟩, rfl⟩
    exact ⟨hnavigable, rfl, hne⟩
  · rintro ⟨hnavigable, rfl, hne⟩
    exact ⟨⟨hnavigable, hne⟩, rfl⟩

private theorem ofBlock_target_eq_none_iff {separator : Char} {b : Block} :
    (ofBlock separator b).1.target = none ↔
      (b.kind.isNavigable = true → b.OpensNothing separator) := by
  rw [ofBlock_target, ← Block.declaredTarget_eq_empty_iff]
  simp

/-- The definition of a block keeps what counts of each statement, and all else is reported. -/
theorem ofBlock_accounted (separator : Char) (b : Block) :
    b.AccountedFor separator (ofBlock separator b).1 (ofBlock separator b).2 := by
  have hdefinition : (ofBlock separator b).1 =
      { (Draft.ofStatements b b.statements).definition with
        target := (ofBlock separator b).1.target } := by
    rw [ofBlock_eq]
    exact finish_eq _ separator
  exact
    { kind := ofBlock_kind separator b
      name := ofBlock_name separator b
      origin := ofBlock_origin separator b
      uuid := congrArg Definition.uuid hdefinition
      parent := congrArg Definition.parent hdefinition
      icon := congrArg Definition.icon hdefinition
      keys := b.definition_keys separator
      values := b.definition_get? separator
      children := congrArg Definition.children hdefinition
      attributes := congrArg Definition.attributes hdefinition
      target := fun _ => ofBlock_target_eq_some_iff
      noTarget := ofBlock_target_eq_none_iff
      reports := congrArg Prod.snd (ofBlock_eq separator b) }

end Definition

end UiCatalog
