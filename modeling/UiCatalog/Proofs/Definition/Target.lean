import UiCatalog.Proofs.Definition.Properties
import UiCatalog.Proofs.Text.Blank
import UiCatalog.Proofs.Text.Split
/-!
# What a block opens

The target of a command or menu follows from the last values of four properties, wherever they stand
in the block, and from the first statement of each of three sorts.
-/

namespace UiCatalog

/-- Whether names are those in a list with separators: of each part between them what is left
without the blanks at its ends, if anything is. -/
def Target.Lists (separator : Char) (text : String) (names : List String) : Prop :=
  ∃ parts trimmed, Text.IsSplit separator text.toList parts ∧
    List.Forall₂ (fun part name => Text.IsTrimmed (String.ofList part) name) parts trimmed ∧
    names = trimmed.filter (· ≠ "")

namespace Block

/-- The statements of a block that may stand in it. -/
def taken (b : Block) : List Statement :=
  b.statements.filter (·.allowedIn b.kind)

/-- What a target says that has all that the statements and properties of a block say about it, and
nothing else. -/
structure Opens (separator : Char) (b : Block) (t : Target) : Prop where
  area : t.area = b.property? "Target"
  mode : t.mode = b.property? "TargetMode"
  expand : ∀ path, t.expand = some path ↔
    path ≠ "" ∧ ∃ text, b.property? "TargetExpand" = some text ∧ Text.IsTrimmed text path
  queryTypes : ∀ text, b.property? "TargetQueryTypes" = some text →
    Target.Lists separator text t.queryTypes
  noQueryTypes : b.property? "TargetQueryTypes" = none → t.queryTypes = []
  table : t.table = b.taken.findSome? Statement.table?
  form : t.form = b.taken.findSome? Statement.form?
  menu : t.menu = b.taken.findSome? Statement.menu?

/-- Whether nothing in a block says anything about a target. -/
structure OpensNothing (separator : Char) (b : Block) : Prop where
  area : b.property? "Target" = none
  mode : b.property? "TargetMode" = none
  expand : ∀ text, b.property? "TargetExpand" = some text → Text.isAllBlank text
  queryTypes : ∀ text, b.property? "TargetQueryTypes" = some text →
    ∀ c ∈ text.toList, Text.isBlank c ∨ c = separator
  statements : ∀ s ∈ b.taken, s.keyword ∉ ["addTargetTable", "addTargetForm", "addTargetMenu"]

end Block

namespace Target

variable {separator : Char} {text : String} {names : List String}

private theorem lists_iff : Lists separator text names ↔ separatedNames separator text = names := by
  have htrimmed (parts : List (List Char)) (trimmed : List String) :
      List.Forall₂ (fun part name => Text.IsTrimmed (String.ofList part) name) parts trimmed ↔
        parts.map (Text.trim ∘ String.ofList) = trimmed := by
    simp only [Text.isTrimmed_iff]
    rw [← List.forall₂_eq_eq_eq, List.forall₂_map_left_iff]
    rfl
  simp only [Lists, Text.isSplit_iff, htrimmed, exists_and_left, exists_eq_left']
  exact eq_comm

private theorem separatedNames_eq_nil_iff :
    separatedNames separator text = [] ↔ ∀ c ∈ text.toList, Text.isBlank c ∨ c = separator := by
  rw [← Text.forall_mem_splitAt, separatedNames, List.filter_eq_nil_iff, List.forall_mem_map]
  refine forall₂_congr fun part _ => ?_
  have hblank := Text.isAllBlank_iff (s := String.ofList part)
  rw [Text.isAllBlank, String.toList_ofList, List.all_eq_true] at hblank
  simp [hblank]

end Target

namespace Block

variable {separator : Char} {b : Block}

def declaredTarget (separator : Char) (b : Block) : Target :=
  Target.withProperties
    { Target.empty with
      table := b.taken.findSome? Statement.table?
      form := b.taken.findSome? Statement.form?
      menu := b.taken.findSome? Statement.menu? }
    separator (b.definition separator).properties

private theorem declaredTarget_eq (separator : Char) (b : Block) :
    b.declaredTarget separator =
      { area := b.property? "Target"
        mode := b.property? "TargetMode"
        queryTypes :=
          ((b.property? "TargetQueryTypes").map (Target.separatedNames separator)).getD []
        expand := ((b.property? "TargetExpand").map Text.trim).filter (· ≠ "")
        table := b.taken.findSome? Statement.table?
        form := b.taken.findSome? Statement.form?
        menu := b.taken.findSome? Statement.menu? } := by
  simp only [declaredTarget, Target.withProperties, definition_get?]

private theorem filter_trim_eq_some_iff {text : Option String} {path : String} :
    (text.map Text.trim).filter (· ≠ "") = some path ↔
      path ≠ "" ∧ ∃ t, text = some t ∧ Text.IsTrimmed t path := by
  simp only [Text.isTrimmed_iff]
  cases text with
  | none => simp
  | some t =>
    rw [Option.map_some, Option.filter_eq_some_iff]
    simp [and_comm]

/-- A block opens one target, the one that it declares. -/
theorem opens_iff {t : Target} : b.Opens separator t ↔ b.declaredTarget separator = t := by
  rw [declaredTarget_eq]
  constructor
  · intro h
    have hexpand : t.expand = ((b.property? "TargetExpand").map Text.trim).filter (· ≠ "") :=
      Option.ext fun path => (h.expand path).trans filter_trim_eq_some_iff.symm
    have hqueryTypes : t.queryTypes =
        ((b.property? "TargetQueryTypes").map (Target.separatedNames separator)).getD [] := by
      cases hproperty : b.property? "TargetQueryTypes" with
      | none => exact h.noQueryTypes hproperty
      | some text => exact (Target.lists_iff.mp (h.queryTypes text hproperty)).symm
    rw [← h.area, ← h.mode, ← hqueryTypes, ← hexpand, ← h.table, ← h.form, ← h.menu]
  · rintro rfl
    refine ⟨rfl, rfl, fun path => filter_trim_eq_some_iff, fun text hproperty => ?_,
      fun hproperty => ?_, rfl, rfl, rfl⟩
    · exact Target.lists_iff.mpr (by simp [hproperty])
    · simp [hproperty]

theorem declaredTarget_eq_empty_iff :
    b.declaredTarget separator = Target.empty ↔ b.OpensNothing separator := by
  have hexpand : ((b.property? "TargetExpand").map Text.trim).filter (· ≠ "") = none ↔
      ∀ text, b.property? "TargetExpand" = some text → Text.isAllBlank text := by
    cases b.property? "TargetExpand" <;> simp [Text.isAllBlank_iff]
  have hqueryTypes :
      ((b.property? "TargetQueryTypes").map (Target.separatedNames separator)).getD [] = [] ↔
        ∀ text, b.property? "TargetQueryTypes" = some text →
          ∀ c ∈ text.toList, Text.isBlank c ∨ c = separator := by
    cases b.property? "TargetQueryTypes" <;> simp [Target.separatedNames_eq_nil_iff]
  have hstatements : (b.taken.findSome? Statement.table? = none ∧
      b.taken.findSome? Statement.form? = none ∧ b.taken.findSome? Statement.menu? = none) ↔
      ∀ s ∈ b.taken, s.keyword ∉ ["addTargetTable", "addTargetForm", "addTargetMenu"] := by
    simp only [List.findSome?_eq_none_iff, ← forall_and]
    refine forall₂_congr fun s _ => ?_
    cases s <;> simp [Statement.keyword]
  rw [declaredTarget_eq, Target.empty, Target.mk.injEq, hqueryTypes, hexpand, hstatements]
  constructor
  · rintro ⟨harea, hmode, hnames, hpath, hsaid⟩
    exact ⟨harea, hmode, hpath, hnames, hsaid⟩
  · exact fun h => ⟨h.area, h.mode, h.queryTypes, h.expand, h.statements⟩

end Block

end UiCatalog
