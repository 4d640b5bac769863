import UiCatalog.FileTree
import UiCatalog.Options
/-!
# Collecting definition files

The definition files of a directory are the files in it and below it whose extension is accepted, in
the order of their paths, part by part. Linked files count; linked directories are passed over,
because they may lead back.
-/

namespace UiCatalog.FileTree

def joinPath (directory : String) (name : EntryName) : String :=
  if directory.endsWith "/" then directory ++ name.text else directory ++ "/" ++ name.text

def pathNames (path : String) : List String :=
  (pathParts path).filter fun part => part ≠ "" ∧ part ≠ "."

/-- The part of a file name after its last dot. The dot may not be the first character. -/
def nameExtension? (name : String) : Option String :=
  match (Text.splitAt '.' name.toList).reverse with
  | [] | [_] => none
  | [_, []] => none
  | extension :: _ => some (String.ofList extension)

def extension? (path : String) : Option String :=
  match (pathNames path).getLast? with
  | none | some ".." => none
  | some name => nameExtension? name

def hasAcceptedExtension (o : Options) (path : String) : Bool :=
  (extension? path).any o.acceptsExtension

/-- The order of paths: part by part, each part by its characters. -/
def pathLe (a b : String) : Bool :=
  !decide (pathNames b < pathNames a)

def under (directory : String) (entries : Listing) : List (String × FileNode) :=
  entries.map fun (name, node) => (joinPath directory name, node)

/-- Whether what stands under a path is collected. -/
def counts (t : FileTree) (o : Options) : String × FileNode → Bool
  | (_, .directory _) => false
  | (path, .link _) => !t.isDirectory path && hasAcceptedExtension o path
  | (path, .file _) => hasAcceptedExtension o path

/-- The directories among the entries of a directory, under their paths, with their own entries. -/
def directoriesIn (directory : String) (entries : Listing) : List (String × Listing) :=
  (under directory entries).filterMap fun
    | (path, .directory inner) => some (path, inner)
    | _ => none

def pendingSize : List (String × Listing) → Nat
  | [] => 0
  | (_, entries) :: pending => 1 + listingSize entries + pendingSize pending

private theorem pendingSize_append (pending more : List (String × Listing)) :
    pendingSize (pending ++ more) = pendingSize pending + pendingSize more := by
  induction pending with
  | nil => exact (Nat.zero_add _).symm
  | cons entry pending ih =>
    rw [List.cons_append, pendingSize, pendingSize, ih]
    exact (Nat.add_assoc _ _ _).symm

private theorem pendingSize_reverse (pending : List (String × Listing)) :
    pendingSize pending.reverse = pendingSize pending := by
  induction pending with
  | nil => rfl
  | cons entry pending ih =>
    rw [List.reverse_cons, pendingSize_append, ih, pendingSize, pendingSize, pendingSize,
      Nat.add_zero, Nat.add_comm]

private theorem pendingSize_directoriesIn (directory : String) (entries : Listing) :
    pendingSize (directoriesIn directory entries) ≤ listingSize entries := by
  induction entries with
  | nil => exact Nat.le_refl 0
  | cons entry entries ih =>
    obtain ⟨name, node⟩ := entry
    have hlater : pendingSize (directoriesIn directory entries) ≤
        node.size + listingSize entries := Nat.le_add_left_of_le ih
    cases node with
    | file content => exact hlater
    | link target => exact hlater
    | directory inner => exact Nat.add_le_add_left ih _

theorem pendingSize_descend (path : String) (entries : Listing)
    (pending : List (String × Listing)) :
    pendingSize ((directoriesIn path entries).reverse ++ pending) <
      pendingSize ((path, entries) :: pending) := by
  have hinner := pendingSize_directoriesIn path entries
  rw [pendingSize_append, pendingSize_reverse, pendingSize]
  omega

/-- The files that count among the entries of pending directories and below them. The directory that
was met last is listed first, and one that cannot be listed ends the search. -/
def filesFrom (t : FileTree) (o : Options) (pending : List (String × Listing)) :
    Except AccessFault (List String) :=
  match pending with
  | [] => .ok []
  | (path, entries) :: pending =>
    match t.readDirectory path with
    | .error reason => .error (.unreadable path reason)
    | .ok _ =>
      let files := ((under path entries).filter (t.counts o)).map Prod.fst
      (filesFrom t o ((directoriesIn path entries).reverse ++ pending)).map (files ++ ·)
termination_by pendingSize pending
decreasing_by exact pendingSize_descend path entries pending

def definitionFiles (t : FileTree) (o : Options) (directory : String) :
    Except AccessFault (List String) :=
  match t.readDirectory directory with
  | .error _ => .error (.notADirectory directory)
  | .ok entries => (t.filesFrom o [(directory, entries)]).map (·.mergeSort pathLe)

end UiCatalog.FileTree
