import UiCatalog.FileTree.Fault
import UiCatalog.Text.Split
/-!
# File trees

A file tree is a root directory with everything below it, and the working directory that a process
has in it. Directories list their entries in some order and tell them apart by their names. A path
is followed from the root or from the working directory, through symbolic links as far as the limit
on their number allows.
-/

namespace UiCatalog

/-- What an entry of a directory can be called. -/
structure IsEntryName (text : String) : Prop where
  nonempty : text ≠ ""
  notDot : text ≠ "."
  notDots : text ≠ ".."
  unbroken : '/' ∉ text.toList

instance (text : String) : Decidable (IsEntryName text) :=
  decidable_of_iff (text ≠ "" ∧ text ≠ "." ∧ text ≠ ".." ∧ '/' ∉ text.toList)
    ⟨fun ⟨nonempty, notDot, notDots, unbroken⟩ => ⟨nonempty, notDot, notDots, unbroken⟩,
      fun h => ⟨h.nonempty, h.notDot, h.notDots, h.unbroken⟩⟩

@[ext]
structure EntryName where
  text : String
  valid : IsEntryName text
deriving DecidableEq

inductive FileNode where
  | file (content : ByteArray)
  | link (target : String)
  | directory (entries : List (EntryName × FileNode))

/-- The entries of a directory with their names, in the order in which they are listed. -/
abbrev Listing := List (EntryName × FileNode)

theorem Listing.mem_of_lookup_eq_some {entries : Listing} {name : EntryName} {node : FileNode}
    (h : entries.lookup name = some node) : (name, node) ∈ entries := by
  obtain ⟨front, back, rfl, -⟩ := List.lookup_eq_some_iff.mp h
  exact List.mem_append_right front List.mem_cons_self

mutual

def FileNode.size : FileNode → Nat
  | .file _ | .link _ => 1
  | .directory entries => 1 + listingSize entries

def listingSize : List (EntryName × FileNode) → Nat
  | [] => 0
  | (_, node) :: entries => node.size + listingSize entries

end

/-- Whether the directories at and below a node tell their entries apart by their names. -/
inductive FileNode.IsDistinct : FileNode → Prop where
  | file (content : ByteArray) : IsDistinct (.file content)
  | link (target : String) : IsDistinct (.link target)
  | directory {entries : Listing} (here : (entries.map Prod.fst).Nodup)
      (below : ∀ entry ∈ entries, entry.2.IsDistinct) : IsDistinct (.directory entries)

def pathParts (path : String) : List String :=
  (Text.splitAt '/' path.toList).map String.ofList

/-- What a part of a path asks for: to stay, to go to the directory above, or to go to an entry. -/
inductive Step where
  | stay
  | up
  | entry (name : EntryName)
deriving DecidableEq

def Step.ofPart? (part : String) : Option Step :=
  if h : IsEntryName part then some (.entry ⟨part, h⟩)
  else if part = "." then some .stay
  else if part = ".." then some .up
  else none

/-- The steps that a path asks for. A slash at the end asks for a directory, as a dot does. -/
def pathSteps (path : String) : List Step :=
  let parts := pathParts path
  parts.filterMap Step.ofPart? ++ (if parts.getLast? = some "" then [.stay] else [])

/-- A directory by the names that lead to it from the root. -/
structure Location where
  names : List EntryName
deriving DecidableEq

namespace Location

def root : Location :=
  ⟨[]⟩

/-- The directory above. Above the root there is only the root. -/
def parent (here : Location) : Location :=
  ⟨here.names.dropLast⟩

def child (here : Location) (name : EntryName) : Location :=
  ⟨here.names ++ [name]⟩

/-- Where a path starts that is read in a directory: at the root if a slash is in front. -/
def start (here : Location) (path : String) : Location :=
  if path.startsWith "/" then root else here

end Location

/-- A file tree by the listing of its root, with the working directory. -/
structure FileTree where
  root : Listing
  distinct : FileNode.IsDistinct (.directory root)
  home : Location

namespace FileTree

/-- The listing of the directory at the end of some names. Where there is none, it is empty. -/
def listingAt : List EntryName → Listing → Listing
  | [], entries => entries
  | name :: names, entries =>
    match entries.lookup name with
    | some (.directory inner) => listingAt names inner
    | _ => []

def listing (t : FileTree) (here : Location) : Listing :=
  listingAt here.names t.root

inductive Place where
  | file (directory : Location) (name : EntryName) (content : ByteArray)
  | directory (location : Location)
  /-- A name that nothing has in its directory. -/
  | free (directory : Location) (name : EntryName)

def nameLimit : Nat :=
  255

def pathLimit : Nat :=
  4095

/-- The number of symbolic links that a path may lead through. -/
def linkLimit : Nat :=
  40

/-- Following steps from a directory. Links are left to `onLink`, with the directory they stand in,
their target and the steps that remain. -/
def walk (t : FileTree) (onLink : Location → String → List Step → Except ReadFault Place) :
    Location → List Step → Except ReadFault Place
  | here, [] => .ok (.directory here)
  | here, .stay :: steps => walk t onLink here steps
  | here, .up :: steps => walk t onLink here.parent steps
  | here, .entry name :: steps =>
    if nameLimit < name.text.utf8ByteSize then .error .nameTooLong
    else
      match (t.listing here).lookup name with
      | some (.directory _) => walk t onLink (here.child name) steps
      | some (.link target) => onLink here target steps
      | some (.file content) =>
        if steps = [] then .ok (.file here name content) else .error .notDirectory
      | none => if steps = [] then .ok (.free here name) else .error .notFound

/-- Following steps from a directory through at most `links` symbolic links. -/
def follow (t : FileTree) (links : Nat) : Location → List Step → Except ReadFault Place :=
  match links with
  | 0 => t.walk fun _ _ _ => .error .tooManyLinks
  | links + 1 =>
    t.walk fun here target steps => follow t links (here.start target) (pathSteps target ++ steps)

def find (t : FileTree) (path : String) : Except ReadFault Place :=
  if '\x00' ∈ path.toList then .error .zeroInPath
  else if path = "" then .error .notFound
  else if pathLimit < path.utf8ByteSize then .error .nameTooLong
  else t.follow linkLimit (t.home.start path) (pathSteps path)

def readDirectory (t : FileTree) (path : String) : Except ReadFault Listing :=
  match t.find path with
  | .ok (.directory here) => .ok (t.listing here)
  | .ok (.file ..) => .error .notDirectory
  | .ok (.free ..) => .error .notFound
  | .error fault => .error fault

def isDirectory (t : FileTree) (path : String) : Bool :=
  (t.readDirectory path).isOk

def leads (t : FileTree) (path : String) : Bool :=
  match t.find path with
  | .ok (.file ..) | .ok (.directory _) => true
  | .ok (.free ..) | .error _ => false

def readText (t : FileTree) (path : String) : Except ReadFault String :=
  match t.find path with
  | .ok (.file _ _ content) =>
    match String.fromUTF8? content with
    | some text => .ok text
    | none => .error .invalidText
  | .ok (.directory _) => .error .isDirectory
  | .ok (.free ..) => .error .notFound
  | .error fault => .error fault

end FileTree

end UiCatalog
