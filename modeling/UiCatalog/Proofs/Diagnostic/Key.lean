import UiCatalog.Diagnostic
import UiCatalog.Reference
/-!
# What a key tells

Problems of one category that have subject, field and message in common are told with the same
severity and the same related names: the message holds every name between fixed words, and where it
holds several, the others are known. Only the names of a cycle cannot be read off its message.
-/

namespace UiCatalog

namespace Problem

def tellsCycle (p : Problem) : Bool :=
  match p.cause with
  | .cyclicInheritance _ | .inheritsCycle _ | .cyclicMenuGraph _ => true
  | _ => false

/-- The form that causes have in practice: no quote in the words for the expected kinds, and a
child as the field of a child. -/
def WellPut (p : Problem) : Prop :=
  match p.cause with
  | .typeMismatch _ _ expected _ => '\'' ∉ expected.toList
  | .childMismatch field _ _ _ => field.toList.head? = some 'c'
  | _ => True

end Problem

theorem Kind.quote_notMem_keyword (k : Kind) : '\'' ∉ k.keyword.toList := by
  cases k <;> decide

private theorem Uuid.length_text (u : Uuid) : u.text.toList.length = 36 := by
  simp [Uuid.text, u.length_digits]

/-- What stands before the last quote is the same in equal texts. -/
private theorem append_quote_inj {x t t' u u' : String}
    (h : x ++ t ++ "'" ++ u = x ++ t' ++ "'" ++ u') (hu : '\'' ∉ u.toList)
    (hu' : '\'' ∉ u'.toList) : t = t' := by
  have hlists : (x ++ t).toList ++ '\'' :: u.toList = (x ++ t').toList ++ '\'' :: u'.toList := by
    simpa using congrArg String.toList h
  refine (String.append_right_inj x).mp (String.toList_injective ?_)
  rcases List.append_eq_append_iff.mp hlists with ⟨a, hx, ha⟩ | ⟨a, hx, ha⟩
  · cases a with
    | nil => rw [hx, List.append_nil]
    | cons c a =>
      rw [(List.cons.inj ha).2] at hu
      exact absurd (List.mem_append_right a List.mem_cons_self) hu
  · cases a with
    | nil => rw [hx, List.append_nil]
    | cons c a =>
      rw [(List.cons.inj ha).2] at hu'
      exact absurd (List.mem_append_right a List.mem_cons_self) hu'

private theorem append_inj_of_length {x t t' y u u' : String}
    (h : x ++ t ++ y ++ u = x ++ t' ++ y ++ u') (hlength : t.toList.length = t'.toList.length) :
    u = u' := by
  have hlists := congrArg String.toList h
  simp only [String.toList_append] at hlists
  refine String.toList_injective (List.append_inj_right hlists ?_)
  simp [hlength]

namespace Problem

private theorem isA_eq : "' is a " = "'" ++ " is a " := rfl

private theorem typeMismatch_target {s field target target' expected expected' : String}
    {found found' : Kind}
    (h : message ⟨s, .typeMismatch field target expected found⟩ =
      message ⟨s, .typeMismatch field target' expected' found'⟩)
    (he : '\'' ∉ expected.toList) (he' : '\'' ∉ expected'.toList) : target = target' := by
  have hsplit (target expected : String) (found : Kind) :
      message ⟨s, .typeMismatch field target expected found⟩ =
        ("type mismatch in " ++ field ++ " of '" ++ s ++ "': '") ++ target ++ "'" ++
          (" is a " ++ found.keyword ++ ", " ++ ("expected " ++ expected)) := by
    simp only [message, toString, isA_eq, String.append_assoc]
  rw [hsplit, hsplit] at h
  refine append_quote_inj h ?_ ?_
  · simp [found.quote_notMem_keyword, he]
  · simp [found'.quote_notMem_keyword, he']

private theorem childMismatch_target {s field target target' : String}
    {declared declared' : ChildKind} {found found' : Kind}
    (h : message ⟨s, .childMismatch field target declared found⟩ =
      message ⟨s, .childMismatch field target' declared' found'⟩) : target = target' := by
  have hsplit (target : String) (declared : ChildKind) (found : Kind) :
      message ⟨s, .childMismatch field target declared found⟩ =
        field ++ " of '" ++ s ++ "' is declared as " ++
          (declared.keyword ++ " but '" ++ target ++ "'" ++ (" is a " ++ found.keyword)) := by
    have hbut : " but '" = " but " ++ "'" := rfl
    simp only [message, toString, isA_eq, hbut, String.append_assoc]
  rw [hsplit, hsplit, String.append_right_inj] at h
  have hdeclared : declared = declared' := by
    have hhead := congrArg (fun t => t.toList.head?) h
    cases declared <;> cases declared' <;> simp [ChildKind.keyword] at hhead ⊢
  subst hdeclared
  refine append_quote_inj h ?_ ?_
  · simp [found.quote_notMem_keyword]
  · simp [found'.quote_notMem_keyword]

private theorem typeMismatch_ne_childMismatch {s field target expected field' target' : String}
    {found found' : Kind} {declared : ChildKind} (hfield : field'.toList.head? = some 'c') :
    message ⟨s, .typeMismatch field target expected found⟩ ≠
      message ⟨s, .childMismatch field' target' declared found'⟩ := by
  intro h
  have hhead := congrArg (fun t => t.toList.head?) h
  simp [message, toString, List.head?_append, hfield] at hhead

private theorem unresolvedReference_ne_missingTypeLink {s field target name : String} :
    message ⟨s, .unresolvedReference field target⟩ ≠ message ⟨s, .missingTypeLink name⟩ := by
  intro h
  have hhead := congrArg (fun t => t.toList.head?) h
  simp [message, toString] at hhead

/-- Problems that are neither of them about a cycle and that share category, subject, field and
message share severity and related names. -/
private theorem eq_of_message {p q : Problem} (hp : p.WellPut) (hq : q.WellPut)
    (hcycle : p.tellsCycle = false) (hcategory : p.category = q.category)
    (hsubject : p.subject = q.subject) (hfield : p.field? = q.field?)
    (hmessage : p.message = q.message) : p.severity = q.severity ∧ p.related = q.related := by
  obtain ⟨s, c⟩ := p
  obtain ⟨s', c'⟩ := q
  obtain rfl : s = s' := hsubject
  cases c <;> cases c' <;> simp only [category, reduceCtorEq] at hcategory <;>
    simp only [tellsCycle, Bool.true_eq_false] at hcycle <;>
    simp only [severity, related, true_and]
  case duplicateUuid.duplicateUuid uuid owner uuid' owner' =>
    have hsplit (t o : String) : "duplicate UUID " ++ t ++ " on '" ++ s ++
        "': already used by '" ++ o =
        "duplicate UUID " ++ t ++ (" on '" ++ s ++ "': already used by '") ++ o := by
      simp only [String.append_assoc]
    simp only [message, toString, String.append_left_inj, hsplit] at hmessage
    have hlength : uuid.text.toList.length = uuid'.text.toList.length := by
      rw [uuid.length_text, uuid'.length_text]
    rw [append_inj_of_length hmessage hlength]
  case unresolvedParent.unresolvedParent parent parent' =>
    simpa [message, toString] using hmessage
  case duplicateAttribute.duplicateAttribute name first name' first' =>
    obtain rfl : name = name' := by simpa [field?, toString] using hfield
    simpa [message, toString] using hmessage
  case unresolvedReference.unresolvedReference field target field' target' =>
    obtain rfl : field = field' := Option.some.inj hfield
    simpa [message, toString] using hmessage
  case unresolvedReference.missingTypeLink =>
    exact absurd hmessage unresolvedReference_ne_missingTypeLink
  case missingTypeLink.unresolvedReference =>
    exact absurd hmessage.symm unresolvedReference_ne_missingTypeLink
  case typeMismatch.typeMismatch field target expected found field' target' expected' found' =>
    obtain rfl : field = field' := Option.some.inj hfield
    rw [typeMismatch_target hmessage hp hq]
  case typeMismatch.childMismatch => exact absurd hmessage (typeMismatch_ne_childMismatch hq)
  case childMismatch.typeMismatch => exact absurd hmessage.symm (typeMismatch_ne_childMismatch hp)
  case childMismatch.childMismatch field target declared found field' target' declared' found' =>
    obtain rfl : field = field' := Option.some.inj hfield
    rw [childMismatch_target hmessage]

theorem WellPut.of_tellsCycle {p : Problem} (hcycle : p.tellsCycle = true) : p.WellPut := by
  obtain ⟨_, c⟩ := p
  cases c <;> trivial

theorem tellsCycle_iff {p : Problem} : p.tellsCycle = true ↔
    p.category = .cyclicInheritance ∨ p.category = .cyclicMenuGraph := by
  obtain ⟨_, c⟩ := p
  cases c <;> simp [tellsCycle, category]

end Problem

/-- A key determines its diagnostic, if it is clear whose cycle a diagnostic about a cycle tells. -/
theorem Diagnostic.ofProblem_eq_of_key {p q : Problem} {origin origin' : Option Origin}
    (hp : p.WellPut) (hq : q.WellPut) (hcycle : p.tellsCycle = true → p = q)
    (hkey : (ofProblem p origin).key = (ofProblem q origin').key) :
    ofProblem p origin = ofProblem q origin' := by
  obtain ⟨horigin, hcategory, hsubject, hfield, hmessage⟩ := Key.mk.inj hkey
  have hrest : p.severity = q.severity ∧ p.related = q.related := by
    cases htells : p.tellsCycle with
    | true => rw [hcycle htells]; exact ⟨rfl, rfl⟩
    | false => exact Problem.eq_of_message hp hq htells hcategory hsubject hfield hmessage
  exact Diagnostic.mk.injEq .. ▸ ⟨hcategory, hrest.1, hsubject, hfield, hmessage, hrest.2, horigin⟩

end UiCatalog
