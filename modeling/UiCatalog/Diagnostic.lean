import UiCatalog.Problem
import UiCatalog.Text.Position
/-!
# Diagnostics

A diagnostic is a problem as it is reported, with the place where its subject was declared. A log
holds diagnostics in the order in which they were reported; when it is closed, those that say the
same at the same place are kept once.
-/

namespace UiCatalog

structure Diagnostic where
  category : Category
  severity : Severity
  subject : String
  field : Option String
  message : String
  related : List String
  origin : Option Origin
deriving DecidableEq

namespace Diagnostic

def ofProblem (p : Problem) (origin : Option Origin) : Diagnostic :=
  ⟨p.category, p.severity, p.subject, p.field?, p.message, p.related, origin⟩

def code (d : Diagnostic) : String :=
  d.category.code

def isError (d : Diagnostic) : Bool :=
  d.severity == .error

def display (d : Diagnostic) : String :=
  let place := match d.origin with
    | some origin => s!" at {origin.display}"
    | none => ""
  s!"{d.severity.text}[{d.code}]: {d.message}{place}"

/-- What two diagnostics have in common if they say the same. -/
structure Key where
  origin : Option Origin
  category : Category
  subject : String
  field : Option String
  message : String
deriving DecidableEq

def key (d : Diagnostic) : Key :=
  ⟨d.origin, d.category, d.subject, d.field, d.message⟩

/-- The diagnostics whose key is neither among `seen` nor that of an earlier one. -/
def firsts (seen : List Key) : List Diagnostic → List Diagnostic
  | [] => []
  | d :: ds => if d.key ∈ seen then firsts seen ds else d :: firsts (d.key :: seen) ds

def count (severity : Severity) (ds : List Diagnostic) : Nat :=
  ds.countP (·.severity == severity)

def about (subject : String) (ds : List Diagnostic) : List Diagnostic :=
  ds.filter (·.subject == subject)

end Diagnostic

/-- Diagnostics in the order in which they were reported. -/
structure Log where
  entries : List Diagnostic

namespace Log

def empty : Log :=
  ⟨[]⟩

def append (l : Log) (ds : List Diagnostic) : Log :=
  ⟨l.entries ++ ds⟩

def report (l : Log) (p : Problem) (origin : Option Origin) : Log :=
  l.append [Diagnostic.ofProblem p origin]

/-- What the log says, each thing once and where it was first said. -/
def close (l : Log) : List Diagnostic :=
  Diagnostic.firsts [] l.entries

end Log

end UiCatalog
