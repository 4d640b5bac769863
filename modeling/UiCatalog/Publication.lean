import UiCatalog.Loading
/-!
# Publication

A publisher shows one edition of what was loaded. A new load is complete before it replaces the
current edition, and editions that were taken before stay as they were. Editions are told apart by
their serial numbers, not by what they hold.
-/

namespace UiCatalog

/-- A load result that was issued under a serial number. -/
structure Edition where
  serial : Nat
  content : Loaded

structure Publisher where
  options : Options
  current : Edition
  /-- The number of editions issued so far. -/
  issued : Nat
  /-- The number of publications so far. -/
  generation : Nat

namespace Publisher

def start (o : Options) : Publisher :=
  ⟨o, ⟨0, Loaded.empty⟩, 1, 0⟩

/-- A new edition, not yet published. -/
def issue (p : Publisher) (content : Loaded) : Publisher × Edition :=
  ({ p with issued := p.issued + 1 }, ⟨p.issued, content⟩)

def publish (p : Publisher) (e : Edition) : Publisher :=
  { p with current := e, generation := p.generation + 1 }

def reload (p : Publisher) (s : SourceSet) : Publisher × Edition :=
  let (p, edition) := p.issue (s.load p.options)
  (p.publish edition, edition)

end Publisher

end UiCatalog
