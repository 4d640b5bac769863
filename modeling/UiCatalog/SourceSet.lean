import UiCatalog.FileTree.Collect
import UiCatalog.Text.Position
/-!
# Source sets

A source set holds texts in load order; the order decides which of two definitions with one name
stands. Sources are only ever added at the end, also by an operation that fails on the way.
-/

namespace UiCatalog

/-- A text to load, with the name under which it is reported. -/
structure Source where
  id : SourceId
  name : String
  /-- The path of a source that was read from a file. -/
  path : Option String
  text : String
deriving DecidableEq

structure SourceSet where
  sources : List Source

namespace SourceSet

def empty : SourceSet :=
  ⟨[]⟩

def size (s : SourceSet) : Nat :=
  s.sources.length

def get? (s : SourceSet) (id : SourceId) : Option Source :=
  s.sources[id]?

def addText (s : SourceSet) (name text : String) : SourceSet × SourceId :=
  (⟨s.sources ++ [⟨s.size, name, none, text⟩]⟩, s.size)

def setPath (s : SourceSet) (id : SourceId) (path : String) : SourceSet :=
  ⟨s.sources.modify id fun source => { source with path := some path }⟩

/-- The set with a file of a tree, whatever its extension, and the number of the file. -/
def addFile (t : FileTree) (s : SourceSet) (path : String) :
    SourceSet × Except AccessFault SourceId :=
  match t.readText path with
  | .error reason => (s, .error (.unreadable path reason))
  | .ok text =>
    let (s, id) := s.addText path text
    (s.setPath id path, .ok id)

/-- The set with files in order, as far as they can be read, and the fault of the one that cannot.
-/
def addFiles (t : FileTree) (s : SourceSet) : List String → SourceSet × Option AccessFault
  | [] => (s, none)
  | path :: paths =>
    match s.addFile t path with
    | (s, .ok _) => addFiles t s paths
    | (s, .error fault) => (s, some fault)

def addDirectory (t : FileTree) (o : Options) (s : SourceSet) (directory : String) :
    SourceSet × Except AccessFault Nat :=
  match t.definitionFiles o directory with
  | .error fault => (s, .error fault)
  | .ok paths =>
    match s.addFiles t paths with
    | (s, none) => (s, .ok paths.length)
    | (s, some fault) => (s, .error fault)

def ofFile (t : FileTree) (path : String) : Except AccessFault SourceSet :=
  match empty.addFile t path with
  | (s, .ok _) => .ok s
  | (_, .error fault) => .error fault

/-- The sources at a path: a file with an accepted extension or the files of a directory. -/
def ofPath (t : FileTree) (o : Options) (path : String) : Except AccessFault SourceSet :=
  if t.isDirectory path then
    match empty.addDirectory t o path with
    | (s, .ok _) => .ok s
    | (_, .error fault) => .error fault
  else if FileTree.hasAcceptedExtension o path then ofFile t path
  else if t.leads path then .error (.unsupportedExtension path)
  else .error (.unreadable path .absent)

end SourceSet

end UiCatalog
