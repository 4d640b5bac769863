import UiCatalog.Kind
import UiCatalog.Uuid
/-!
# Problems

A problem has a subject, the entity or source that it is about, and a cause. Everything that is told
about a problem follows from these two.
-/

namespace UiCatalog

inductive Severity where
  | error
  | warning
  | info
deriving DecidableEq

def Severity.text : Severity → String
  | .error => "error"
  | .warning => "warning"
  | .info => "info"

inductive Category where
  | duplicateName
  | duplicateUuid
  | unresolvedParent
  | cyclicInheritance
  | duplicateAttribute
  | unresolvedReference
  | typeMismatch
  | cyclicMenuGraph
  | malformedText
  | invalidStatement
deriving DecidableEq

namespace Category

def name : Category → String
  | .duplicateName => "DuplicateName"
  | .duplicateUuid => "DuplicateUuid"
  | .unresolvedParent => "UnresolvedParent"
  | .cyclicInheritance => "CyclicInheritance"
  | .duplicateAttribute => "DuplicateAttribute"
  | .unresolvedReference => "UnresolvedReference"
  | .typeMismatch => "TypeMismatch"
  | .cyclicMenuGraph => "CyclicMenuGraph"
  | .malformedText => "Syntax"
  | .invalidStatement => "InvalidStatement"

/-- The code under which a category is documented; from `E0100` on it concerns a source text. -/
def code : Category → String
  | .duplicateName => "E0001"
  | .unresolvedParent => "E0002"
  | .cyclicInheritance => "E0003"
  | .duplicateAttribute => "E0004"
  | .unresolvedReference => "E0005"
  | .typeMismatch => "E0006"
  | .cyclicMenuGraph => "E0007"
  | .duplicateUuid => "E0008"
  | .malformedText => "E0100"
  | .invalidStatement => "E0101"

end Category

inductive Cause where
  /-- The name belongs to an earlier definition. -/
  | duplicateName (existing : Kind)
  /-- The UUID belongs to an earlier definition. -/
  | duplicateUuid (uuid : Uuid) (owner : String)
  | unresolvedParent (parent : String)
  /-- The subject lies on a cycle of parents. -/
  | cyclicInheritance (cycle : List String)
  /-- The parents of the subject run into a cycle. -/
  | inheritsCycle (cycle : List String)
  | duplicateAttribute (name declaredBy : String)
  | unresolvedReference (field target : String)
  /-- An attribute points at another type and does not say which. -/
  | missingTypeLink (name : String)
  | typeMismatch (field target expected : String) (found : Kind)
  /-- A child is of the other navigable kind than declared; it is a child all the same. -/
  | childMismatch (field target : String) (declared : ChildKind) (found : Kind)
  | cyclicMenuGraph (cycle : List String)
  /-- A source text is not well formed. -/
  | malformedText (message : String)
  | invalidStatement (message : String)
deriving DecidableEq

structure Problem where
  subject : String
  cause : Cause
deriving DecidableEq

/-- A cycle from its first name back to it. -/
def renderCycle (cycle : List String) : String :=
  " -> ".intercalate (cycle ++ cycle.head?.toList)

namespace Problem

def category (p : Problem) : Category :=
  match p.cause with
  | .duplicateName _ => .duplicateName
  | .duplicateUuid _ _ => .duplicateUuid
  | .unresolvedParent _ => .unresolvedParent
  | .cyclicInheritance _ | .inheritsCycle _ => .cyclicInheritance
  | .duplicateAttribute _ _ => .duplicateAttribute
  | .unresolvedReference _ _ | .missingTypeLink _ => .unresolvedReference
  | .typeMismatch _ _ _ _ | .childMismatch _ _ _ _ => .typeMismatch
  | .cyclicMenuGraph _ => .cyclicMenuGraph
  | .malformedText _ => .malformedText
  | .invalidStatement _ => .invalidStatement

def severity (p : Problem) : Severity :=
  match p.cause with
  | .childMismatch _ _ _ _ => .warning
  | _ => .error

def message (p : Problem) : String :=
  match p.cause with
  | .duplicateName existing =>
    s!"duplicate definition: '{p.subject}' is already defined as a {existing.keyword}"
  | .duplicateUuid uuid owner =>
    s!"duplicate UUID {uuid.text} on '{p.subject}': already used by '{owner}'"
  | .unresolvedParent parent => s!"unresolved parent type '{parent}' of '{p.subject}'"
  | .cyclicInheritance cycle => s!"cyclic inheritance: {renderCycle cycle}"
  | .inheritsCycle cycle =>
    s!"ancestor chain of '{p.subject}' runs into cyclic inheritance: {renderCycle cycle}"
  | .duplicateAttribute name declaredBy =>
    s!"duplicate attribute '{name}' on '{p.subject}': already declared by '{declaredBy}'"
  | .unresolvedReference field target =>
    s!"unresolved reference '{target}' in {field} of '{p.subject}'"
  | .missingTypeLink name => s!"link attribute '{name}' of '{p.subject}' declares no type link"
  | .typeMismatch field target expected found =>
    s!"type mismatch in {field} of '{p.subject}': '{target}' is a {found.keyword}, " ++
      s!"expected {expected}"
  | .childMismatch field target declared found =>
    s!"{field} of '{p.subject}' is declared as {declared.keyword} but " ++
      s!"'{target}' is a {found.keyword}"
  | .cyclicMenuGraph cycle => s!"cyclic menu graph: {renderCycle cycle}"
  | .malformedText message => message
  | .invalidStatement message => s!"invalid statement in '{p.subject}': {message}"

def field? (p : Problem) : Option String :=
  match p.cause with
  | .unresolvedReference field _ | .typeMismatch field _ _ _ | .childMismatch field _ _ _ =>
    some field
  | .unresolvedParent _ => some "parentType"
  | .missingTypeLink name => some s!"attributes.{name}.typeLink"
  | .duplicateAttribute name _ => some s!"attributes.{name}"
  | _ => none

def related (p : Problem) : List String :=
  match p.cause with
  | .duplicateUuid _ owner => [owner]
  | .unresolvedParent parent => [parent]
  | .cyclicInheritance cycle | .inheritsCycle cycle | .cyclicMenuGraph cycle => cycle
  | .duplicateAttribute _ declaredBy => [declaredBy]
  | .unresolvedReference _ target | .typeMismatch _ target _ _ | .childMismatch _ target _ _ =>
    [target]
  | .duplicateName _ | .missingTypeLink _ | .malformedText _ | .invalidStatement _ => []

end Problem

end UiCatalog
