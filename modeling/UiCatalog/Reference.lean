import UiCatalog.Registry
/-!
# References

A definition mentions others by name. A mention resolves if the name is registered with a kind that
is accepted there; otherwise the reference keeps the name and has no target, and there is a problem.
-/

namespace UiCatalog

/-- A mentioned name and the handle that it resolved to. -/
structure Reference where
  name : String
  target : Option Handle
deriving DecidableEq

/-- A place in a definition that names another one, with the kinds that may stand there. -/
structure Mention where
  field : String
  name : String
  accepts : List Kind

namespace Mention

def expected (m : Mention) : String :=
  " or ".intercalate (m.accepts.map Kind.keyword)

def target? (m : Mention) (r : Registry) : Option Handle :=
  (r.find? m.name).filter fun h => (r.kind? h).any (· ∈ m.accepts)

def reference (m : Mention) (r : Registry) : Reference :=
  ⟨m.name, m.target? r⟩

/-- Why a mention in `subject` does not resolve. -/
def problems (m : Mention) (r : Registry) (subject : String) : List Problem :=
  match (r.find? m.name).bind r.kind? with
  | none => [⟨subject, .unresolvedReference m.field m.name⟩]
  | some found =>
    if found ∈ m.accepts then []
    else [⟨subject, .typeMismatch m.field m.name m.expected found⟩]

end Mention

end UiCatalog
