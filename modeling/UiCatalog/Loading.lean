import UiCatalog.Document
import UiCatalog.Resolution
import UiCatalog.SourceSet
/-!
# Loading

A load reads every source of a set and resolves all blocks together. Faults in the texts are
reported first, under the names of their sources, and keep nothing else from being loaded.
-/

namespace UiCatalog

def Source.problem (s : Source) (f : Fault) : Problem :=
  ⟨s.name, if f.isStatementFault then .invalidStatement f.message else .malformedText f.message⟩

def Source.diagnose (s : Source) (d : Document) : List Diagnostic :=
  d.faults.map fun f => Diagnostic.ofProblem (s.problem f.fault) (some ⟨s.id, f.span⟩)

def SourceSet.load (o : Options) (s : SourceSet) : Loaded :=
  let documents := s.sources.map fun source => (source, Document.ofText source.id source.text)
  let log := Log.empty.append (documents.flatMap fun (source, d) => source.diagnose d)
  resolveAfter log o (documents.flatMap fun (_, d) => d.blocks)

end UiCatalog
