import UiCatalog.FileTree
/-!
# Building file trees

A tree is built entry by entry. Directories on the way to an entry are made where they are missing,
also beyond symbolic links. A file is written through links at the end of its path, over the file
that is there; a directory or a link is only made under a name that is free. What cannot be made is
left out. Directories go on telling their entries apart.
-/

namespace UiCatalog.FileTree

/-- A listing with a node under a name, in place of what had the name. -/
def putEntry (name : EntryName) (node : FileNode) : Listing → Listing
  | [] => [(name, node)]
  | entry :: entries =>
    if entry.1 = name then (name, node) :: entries else entry :: putEntry name node entries

/-- A listing with a change to the directory at the end of some names, if there is one. -/
def changeListing (change : Listing → Listing) : List EntryName → Listing → Listing
  | [], entries => change entries
  | name :: names, entries =>
    match entries.lookup name with
    | some (.directory inner) =>
      putEntry name (.directory (changeListing change names inner)) entries
    | _ => entries

section

variable {entries : Listing} {name : EntryName} {node : FileNode}

private theorem mem_putEntry {entry : EntryName × FileNode}
    (h : entry ∈ putEntry name node entries) : entry = (name, node) ∨ entry ∈ entries := by
  induction entries with
  | nil => exact .inl (List.mem_singleton.mp h)
  | cons first entries ih =>
    rw [putEntry] at h
    split at h
    · exact (List.mem_cons.mp h).imp_right (List.mem_cons_of_mem first)
    · rcases List.mem_cons.mp h with rfl | hmem
      · exact .inr List.mem_cons_self
      · exact (ih hmem).imp_right (List.mem_cons_of_mem first)

private theorem nodup_putEntry (h : (entries.map Prod.fst).Nodup) :
    ((putEntry name node entries).map Prod.fst).Nodup := by
  induction entries with
  | nil => exact List.pairwise_singleton _ _
  | cons first entries ih =>
    obtain ⟨hfirst, hlater⟩ := List.pairwise_cons.mp h
    rw [putEntry]
    split
    · rename_i hsame
      exact hsame ▸ h
    · rename_i hother
      refine List.pairwise_cons.mpr ⟨fun later hmem => ?_, ih hlater⟩
      obtain ⟨entry, hentry, rfl⟩ := List.mem_map.mp hmem
      rcases mem_putEntry hentry with rfl | hentry
      · exact hother
      · exact hfirst _ (List.mem_map_of_mem hentry)

private theorem isDistinct_putEntry (h : FileNode.IsDistinct (.directory entries))
    (hnode : node.IsDistinct) : FileNode.IsDistinct (.directory (putEntry name node entries)) := by
  cases h with
  | directory here below =>
    refine .directory (nodup_putEntry here) fun entry hentry => ?_
    rcases mem_putEntry hentry with rfl | hmem
    · exact hnode
    · exact below entry hmem

private theorem isDistinct_changeListing {change : Listing → Listing}
    (hchange : ∀ entries, FileNode.IsDistinct (.directory entries) →
      FileNode.IsDistinct (.directory (change entries)))
    (names : List EntryName) (h : FileNode.IsDistinct (.directory entries)) :
    FileNode.IsDistinct (.directory (changeListing change names entries)) := by
  induction names generalizing entries with
  | nil => exact hchange entries h
  | cons first names ih =>
    rw [changeListing]
    split
    · rename_i inner hinner
      cases h with
      | directory here below =>
        have hbelow := below _ (Listing.mem_of_lookup_eq_some hinner)
        exact isDistinct_putEntry (.directory here below) (ih hbelow)
    · exact h

end

/-- The tree of an empty root, which is the working directory. -/
def empty : FileTree :=
  ⟨[], .directory .nil (fun _ h => (List.not_mem_nil h).elim), .root⟩

def put (t : FileTree) (directory : Location) (name : EntryName) (node : FileNode)
    (h : node.IsDistinct) : FileTree where
  root := changeListing (putEntry name node) directory.names t.root
  distinct := isDistinct_changeListing (fun _ hentries => isDistinct_putEntry hentries h)
    directory.names t.distinct
  home := t.home

/-- The tree with a node at a step from one of its directories, if that is a free name. -/
def putNew (t : FileTree) (directory : Location) (step : Step) (node : FileNode)
    (h : node.IsDistinct) : FileTree :=
  match t.follow 0 directory [step] with
  | .ok (.free directory name) => t.put directory name node h
  | _ => t

def putDirectory (t : FileTree) (directory : Location) (step : Step) : FileTree :=
  t.putNew directory step (.directory [])
    (.directory .nil fun _ h => (List.not_mem_nil h).elim)

/-- The tree with directories for the steps from a directory, and where the steps lead. -/
def makeDirectories (t : FileTree) (here : Location) : List Step → FileTree × Option Location
  | [] => (t, some here)
  | step :: steps =>
    let t := t.putDirectory here step
    match t.follow linkLimit here [step] with
    | .ok (.directory next) => t.makeDirectories next steps
    | _ => (t, none)

/-- The tree with the directories on the way to what a path names, where they lead, and the last
step of the path. After a slash at the end that step is to stay, and nothing new can stand there. -/
def approach (t : FileTree) (path : String) : FileTree × Option (Location × Step) :=
  let steps := pathSteps path
  let onTheWay := (steps.filter (· ≠ .stay)).dropLast
  let (t, here) := t.makeDirectories (t.home.start path) onTheWay
  match here, steps.getLast? with
  | some here, some step => (t, some (here, step))
  | _, _ => (t, none)

def makeDirectory (t : FileTree) (path : String) : FileTree :=
  (t.makeDirectories (t.home.start path) (pathSteps path)).1

def makeLink (t : FileTree) (path target : String) : FileTree :=
  match t.approach path with
  | (t, some (here, step)) =>
    if target = "" then t else t.putNew here step (.link target) (.link target)
  | (t, none) => t

/-- The tree with a file that a path leads to. -/
def writeFile (t : FileTree) (path : String) (content : ByteArray) : FileTree :=
  match t.approach path with
  | (t, some (here, step)) =>
    match t.follow linkLimit here [step] with
    | .ok (.file directory name _) | .ok (.free directory name) =>
      t.put directory name (.file content) (.file content)
    | _ => t
  | (t, none) => t

/-- The tree with the directory that a path leads to as its working directory. -/
def enter (t : FileTree) (path : String) : FileTree :=
  match t.find path with
  | .ok (.directory here) => { t with home := here }
  | _ => t

end UiCatalog.FileTree
