import UiCatalog.Proofs.Definition.WellStated
/-!
# What a well stated block declares

The definition of a well stated block holds what its statements say, each thing in the order in
which it is said.
-/

namespace UiCatalog

namespace Definition.Draft

/-- Whether a draft holds what another one does and what statements say besides. -/
structure Adds (d : Draft) (ss : List Statement) (d' : Draft) : Prop where
  uuid : d'.definition.uuid.toList = d.definition.uuid.toList ++ ss.filterMap Statement.uuid?
  parent : d'.definition.parent.toList =
    d.definition.parent.toList ++ ss.filterMap Statement.parent?
  icon : d'.definition.icon.toList = d.definition.icon.toList ++ ss.filterMap Statement.icon?
  table : d'.target.table.toList = d.target.table.toList ++ ss.filterMap Statement.table?
  form : d'.target.form.toList = d.target.form.toList ++ ss.filterMap Statement.form?
  menu : d'.target.menu.toList = d.target.menu.toList ++ ss.filterMap Statement.menu?
  attributes : d'.definition.attributes =
    d.definition.attributes ++ ss.filterMap Statement.attribute?
  children : d'.definition.children = d.definition.children ++ ss.filterMap Statement.child?
  properties : d'.definition.properties =
    d.definition.properties.setAll (ss.filterMap Statement.property?)
  target : d'.definition.target = d.definition.target

private theorem Adds.trans {d d' d'' : Draft} {ss ss' : List Statement} (h : Adds d ss d')
    (h' : Adds d' ss' d'') : Adds d (ss ++ ss') d'' where
  uuid := by rw [h'.uuid, h.uuid, List.filterMap_append, List.append_assoc]
  parent := by rw [h'.parent, h.parent, List.filterMap_append, List.append_assoc]
  icon := by rw [h'.icon, h.icon, List.filterMap_append, List.append_assoc]
  table := by rw [h'.table, h.table, List.filterMap_append, List.append_assoc]
  form := by rw [h'.form, h.form, List.filterMap_append, List.append_assoc]
  menu := by rw [h'.menu, h.menu, List.filterMap_append, List.append_assoc]
  attributes := by rw [h'.attributes, h.attributes, List.filterMap_append, List.append_assoc]
  children := by rw [h'.children, h.children, List.filterMap_append, List.append_assoc]
  properties := by
    rw [h'.properties, h.properties, List.filterMap_append, Properties.setAll, Properties.setAll,
      Properties.setAll, List.foldl_append]
  target := h'.target.trans h.target

private theorem adds_apply {d : Draft} {s : Statement} (h : (d.apply s).2 = []) :
    Adds d [s] (d.apply s).1 := by
  obtain ⟨hsayable, hfree⟩ := apply_misuses_eq_nil_iff.mp h
  cases s with
  | setUuid text =>
    obtain ⟨uuid, hparse⟩ := hsayable
    have hnone : d.definition.uuid = none := by simpa [holds, Statement.keyword] using hfree
    constructor <;>
      simp [apply, hparse, hnone, setOnce, Except.toOption, Properties.setAll, List.filterMap_cons]
  | setParent name =>
    have hnone : d.definition.parent = none := by simpa [holds, Statement.keyword] using hfree
    constructor <;> simp [apply, hnone, setOnce, Properties.setAll, List.filterMap_cons]
  | addIcon icon =>
    have hnone : d.definition.icon = none := by simpa [holds, Statement.keyword] using hfree
    constructor <;> simp [apply, hnone, setOnce, Properties.setAll, List.filterMap_cons]
  | addTargetTable name =>
    have hnone : d.target.table = none := by simpa [holds, Statement.keyword] using hfree
    constructor <;> simp [apply, hnone, setOnce, Properties.setAll, List.filterMap_cons]
  | addTargetForm name =>
    have hnone : d.target.form = none := by simpa [holds, Statement.keyword] using hfree
    constructor <;> simp [apply, hnone, setOnce, Properties.setAll, List.filterMap_cons]
  | addTargetMenu name =>
    have hnone : d.target.menu = none := by simpa [holds, Statement.keyword] using hfree
    constructor <;> simp [apply, hnone, setOnce, Properties.setAll, List.filterMap_cons]
  | addProperty | addAttribute | addChild =>
    constructor <;> simp [apply, Properties.setAll, List.filterMap_cons]

private theorem adds_applyAll {d : Draft} {ss : List Statement} (h : (d.applyAll ss).2 = []) :
    Adds d ss (d.applyAll ss).1 := by
  induction ss generalizing d with
  | nil =>
    constructor <;> simp [applyAll, Properties.setAll]
  | cons s ss ih =>
    rw [applyAll] at h ⊢
    split at h
    · rename_i hallowed
      obtain ⟨hs, hss⟩ := List.append_eq_nil_iff.mp h
      rw [if_pos hallowed]
      exact (adds_apply hs).trans (ih hss)
    · simp at h

end Definition.Draft

namespace Attribute

private theorem name_applyAll (a : Attribute) (body : List FieldStatement) :
    (a.applyAll body).1.name = a.name := by
  have hset (a : Attribute) (s : FieldStatement) : (a.set s).name = a.name := by
    unfold set
    split <;> rfl
  induction body generalizing a with
  | nil => rfl
  | cons s body ih =>
    rw [applyAll, ih, apply]
    split
    · rfl
    · exact hset a s

private theorem name_ofBody (name : String) (body : List FieldStatement) :
    (ofBody name body).1.name = name :=
  name_applyAll (bare name) body

private theorem applyAll_cons {a : Attribute} {s : FieldStatement} {body : List FieldStatement}
    (h : (a.applyAll (s :: body)).2 = []) :
    a.has s.field = false ∧ (a.applyAll (s :: body)).1 = ((a.set s).applyAll body).1 ∧
      ((a.set s).applyAll body).2 = [] := by
  have hfree := (applyAll_misuses_eq_nil_iff.mp h).2 s List.mem_cons_self
  have happly : a.apply s = (a.set s, []) := by
    rw [apply, hfree]
    rfl
  rw [applyAll, happly] at h ⊢
  exact ⟨hfree, rfl, h⟩

private theorem typeLink_applyAll {a : Attribute} {body : List FieldStatement} {link : String}
    (h : (a.applyAll body).2 = []) :
    (a.applyAll body).1.typeLink = some link ↔
      a.typeLink = some link ∨ ⟨.typeLink, link⟩ ∈ body := by
  induction body generalizing a with
  | nil => simp [applyAll]
  | cons s body ih =>
    obtain ⟨hfree, heq, hrest⟩ := applyAll_cons h
    rw [heq, ih hrest, List.mem_cons]
    obtain ⟨f, value⟩ := s
    cases f
    case typeLink =>
      have hnone : a.typeLink = none := by simpa [has] using hfree
      simp [set, hnone, eq_comm]
    all_goals simp [set]

private theorem type_applyAll {a : Attribute} {body : List FieldStatement} {t : AttributeType}
    (h : (a.applyAll body).2 = []) :
    (a.applyAll body).1.type = some t ↔
      a.type = some t ∨ ∃ tag, ⟨.type, tag⟩ ∈ body ∧ AttributeType.ofTag tag = t := by
  induction body generalizing a with
  | nil => simp [applyAll]
  | cons s body ih =>
    obtain ⟨hfree, heq, hrest⟩ := applyAll_cons h
    rw [heq, ih hrest]
    obtain ⟨f, value⟩ := s
    cases f
    case type =>
      have hnone : a.type = none := by simpa [has] using hfree
      simp [set, hnone]
    all_goals simp [set]

theorem typeLink_ofBody {name link : String} {body : List FieldStatement}
    (h : (body.map FieldStatement.field).Nodup) :
    (ofBody name body).1.typeLink = some link ↔ ⟨.typeLink, link⟩ ∈ body := by
  rw [ofBody, typeLink_applyAll (ofBody_misuses_eq_nil_iff.mpr h)]
  simp [bare]

end Attribute

namespace AttributeType

private theorem tag_ofTag (tag : String) : (ofTag tag).tag = tag := by
  unfold ofTag
  cases hfind : known.find? (·.tag == tag) with
  | none => rfl
  | some t => simpa using List.find?_some hfind

private theorem isLink_ofTag_iff {tag : String} :
    (ofTag tag).isLink = true ↔ tag ∈ ["Link", "LinkWithRanges", "Status"] := by
  constructor
  · intro hlink
    rw [← tag_ofTag tag]
    cases htype : ofTag tag <;> simp [htype, isLink] at hlink <;> simp [AttributeType.tag]
  · intro htag
    simp only [List.mem_cons, List.not_mem_nil, or_false] at htag
    rcases htag with rfl | rfl | rfl <;> decide

end AttributeType

theorem Attribute.isLink_ofBody {name : String} {body : List FieldStatement}
    (h : (body.map FieldStatement.field).Nodup) :
    (ofBody name body).1.isLink = true ↔
      ∃ tag ∈ ["Link", "LinkWithRanges", "Status"], ⟨.type, tag⟩ ∈ body := by
  rw [isLink, Option.any_eq_true]
  simp only [ofBody, type_applyAll (ofBody_misuses_eq_nil_iff.mpr h)]
  constructor
  · rintro ⟨_, htype | ⟨tag, htag, rfl⟩, hlink⟩
    · simp [bare] at htype
    · exact ⟨tag, AttributeType.isLink_ofTag_iff.mp hlink, htag⟩
  · rintro ⟨tag, hlink, htag⟩
    exact ⟨_, Or.inr ⟨tag, htag, rfl⟩, AttributeType.isLink_ofTag_iff.mpr hlink⟩

namespace Block

/-- The last value that a block gives a property. -/
def property? (b : Block) (key : String) : Option String :=
  List.lookup key (b.statements.filterMap Statement.property?).reverse

def attributeNames (b : Block) : List String :=
  b.statements.filterMap Statement.attributeName?

/-- The target that the statements and properties of a block give it. -/
def target (separator : Char) (b : Block) : Target :=
  { area := b.property? "Target"
    mode := b.property? "TargetMode"
    queryTypes := ((b.property? "TargetQueryTypes").map (Target.separatedNames separator)).getD []
    expand := ((b.property? "TargetExpand").map Text.trim).filter (· ≠ "")
    table := (b.statements.filterMap Statement.table?).head?
    form := (b.statements.filterMap Statement.form?).head?
    menu := (b.statements.filterMap Statement.menu?).head? }

namespace WellStated

variable {separator : Char} {b : Block}

private abbrev blank (b : Block) : Definition.Draft :=
  ⟨Definition.bare b.kind b.name b.origin, Target.empty⟩

private theorem adds (hb : b.WellStated) :
    (blank b).Adds b.statements ((blank b).applyAll b.statements).1 :=
  Definition.Draft.adds_applyAll ((misuses_eq_nil_iff ';').mpr hb)

private theorem definition_eq (separator : Char) (b : Block) :
    b.definition separator = ((blank b).applyAll b.statements).1.finish separator :=
  rfl

private theorem parent_eq (hb : b.WellStated) :
    (b.definition separator).parent.toList = b.statements.filterMap Statement.parent? := by
  have h := hb.adds.parent
  rw [definition_eq, Definition.Draft.finish]
  split <;> simpa [Definition.bare] using h

private theorem children_eq (hb : b.WellStated) :
    (b.definition separator).children = b.statements.filterMap Statement.child? := by
  have h := hb.adds.children
  rw [definition_eq, Definition.Draft.finish]
  split <;> simpa [Definition.bare] using h

private theorem attributes_eq (hb : b.WellStated) :
    (b.definition separator).attributes = b.statements.filterMap Statement.attribute? := by
  have h := hb.adds.attributes
  rw [definition_eq, Definition.Draft.finish]
  split <;> simpa [Definition.bare] using h

theorem parent_eq_some_iff (hb : b.WellStated) {p : String} :
    (b.definition separator).parent = some p ↔ .setParent p ∈ b.statements := by
  rw [← Option.mem_toList, hb.parent_eq]
  simp only [List.mem_filterMap, Statement.parent?_eq_some_iff, exists_eq_right]

theorem mem_children_iff (hb : b.WellStated) {c : Child} :
    c ∈ (b.definition separator).children ↔ .addChild c.kind c.name ∈ b.statements := by
  rw [hb.children_eq]
  simp only [List.mem_filterMap, Statement.child?_eq_some_iff, exists_eq_right]

theorem mem_attributes_iff (hb : b.WellStated) {a : Attribute} :
    a ∈ (b.definition separator).attributes ↔
      ∃ name body, .addAttribute name body ∈ b.statements ∧ (Attribute.ofBody name body).1 = a := by
  rw [hb.attributes_eq, List.mem_filterMap]
  constructor
  · rintro ⟨s, hs, ha⟩
    cases s <;> simp at ha
    exact ⟨_, _, hs, ha⟩
  · rintro ⟨name, body, hs, rfl⟩
    exact ⟨_, hs, rfl⟩

theorem attributes_names (hb : b.WellStated) :
    (b.definition separator).attributes.map Attribute.name = b.attributeNames := by
  rw [hb.attributes_eq, List.map_filterMap, Block.attributeNames]
  congr 1
  funext s
  cases s <;> simp [Attribute.name_ofBody]

theorem target_eq (hb : b.WellStated) :
    (b.definition separator).target =
      if b.kind.isNavigable ∧ b.target separator ≠ Target.empty then some (b.target separator)
      else none := by
  have hadds := hb.adds
  have hkind : ((blank b).applyAll b.statements).1.definition.kind = b.kind :=
    ((blank b).sameHead_applyAll b.statements).kind
  have hhead {o : Option String} {l : List String} (h : o.toList = l) : o = l.head? := by
    rw [← h, Option.head?_toList]
  have hproperty (key : String) :
      ((blank b).applyAll b.statements).1.definition.properties.get? key = b.property? key := by
    rw [hadds.properties, Properties.get?_setAll]
    exact Option.or_none
  have htarget : Target.withProperties ((blank b).applyAll b.statements).1.target separator
      ((blank b).applyAll b.statements).1.definition.properties = b.target separator := by
    simp only [Target.withProperties, hproperty, Block.target, hhead hadds.table,
      hhead hadds.form, hhead hadds.menu]
    rfl
  rw [definition_eq, Definition.Draft.finish, hkind]
  by_cases hnavigable : b.kind.isNavigable = true
  · rw [if_pos hnavigable]
    simp only [htarget, hnavigable, true_and, ne_eq, ite_not]
  · rw [if_neg hnavigable, if_neg fun h => hnavigable h.1]
    exact hadds.target

private theorem head?_eq_some_iff {α : Type} {o : Option α} {l : List α} (h : o.toList = [] ++ l)
    {a : α} : l.head? = some a ↔ a ∈ l := by
  rw [List.nil_append] at h
  subst h
  cases o <;> simp [eq_comm]

theorem target_table_eq_some_iff (hb : b.WellStated) {name : String} :
    (b.target separator).table = some name ↔ .addTargetTable name ∈ b.statements := by
  refine (head?_eq_some_iff hb.adds.table).trans ?_
  simp only [List.mem_filterMap, Statement.table?_eq_some_iff, exists_eq_right]

theorem target_form_eq_some_iff (hb : b.WellStated) {name : String} :
    (b.target separator).form = some name ↔ .addTargetForm name ∈ b.statements := by
  refine (head?_eq_some_iff hb.adds.form).trans ?_
  simp only [List.mem_filterMap, Statement.form?_eq_some_iff, exists_eq_right]

theorem target_menu_eq_some_iff (hb : b.WellStated) {name : String} :
    (b.target separator).menu = some name ↔ .addTargetMenu name ∈ b.statements := by
  refine (head?_eq_some_iff hb.adds.menu).trans ?_
  simp only [List.mem_filterMap, Statement.menu?_eq_some_iff, exists_eq_right]

end WellStated

end Block

end UiCatalog
