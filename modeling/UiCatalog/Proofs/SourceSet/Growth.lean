import Mathlib.Data.List.Induction
import UiCatalog.Proofs.FileTree.Collected
/-!
# Growing source sets

A source set only grows at its end, and the number of a source is its place. A call that fails
leaves behind what it had added before the fault: nothing for a file, and for a directory the files
in front of the first one that cannot be read.
-/

namespace UiCatalog

/-- A call that adds to a source set, over the files as the call finds them. -/
inductive Addition where
  | text (name text : String)
  | file (tree : FileTree) (path : String)
  | directory (tree : FileTree) (options : Options) (path : String)

/-- The set that a call leaves behind, whether it succeeds or fails. -/
def Addition.apply (s : SourceSet) : Addition → SourceSet
  | .text name content => (s.addText name content).1
  | .file tree path => (s.addFile tree path).1
  | .directory tree options path => (s.addDirectory tree options path).1

namespace SourceSet

/-- The set that calls leave behind that start with no source. -/
def ofAdditions (additions : List Addition) : SourceSet :=
  additions.foldl Addition.apply empty

def withFiles (s : SourceSet) (files : List (String × String)) : SourceSet :=
  ⟨s.sources ++ (files.zipIdx s.size).map fun ((path, text), id) => ⟨id, path, some path, text⟩⟩

/-- Whether every source has its place as number. -/
def IsDense (s : SourceSet) : Prop :=
  ∀ (i : Nat) (source : Source), s.sources[i]? = some source → source.id = i

variable {t : FileTree} {o : Options} {s : SourceSet} {path directory : String}

@[simp] theorem withFiles_nil (s : SourceSet) : s.withFiles [] = s := by
  simp [withFiles]

private theorem withFiles_cons (s : SourceSet) (file : String × String)
    (files : List (String × String)) :
    s.withFiles (file :: files) = (s.withFiles [file]).withFiles files := by
  simp [withFiles, size]

private theorem modify_length_concat {α : Type} (f : α → α) (as : List α) (a : α) :
    (as ++ [a]).modify as.length f = as ++ [f a] := by
  induction as with
  | nil => rfl
  | cons first as ih =>
    rw [List.cons_append, List.length_cons, List.modify_succ_cons, ih, List.cons_append]

private theorem setPath_addText (s : SourceSet) (path text : String) :
    (s.addText path text).1.setPath s.size path = s.withFiles [(path, text)] := by
  rw [addText, setPath, size, modify_length_concat]
  rfl

private theorem addFile_of_ok {text : String} (h : t.readText path = .ok text) :
    s.addFile t path = (s.withFiles [(path, text)], .ok s.size) := by
  rw [addFile, h, ← setPath_addText]
  rfl

private theorem addFile_of_error {reason : ReadFault} (h : t.readText path = .error reason) :
    s.addFile t path = (s, .error (.unreadable path reason)) := by
  rw [addFile, h]

/-- What a call for a file does. -/
inductive FileOutcome (t : FileTree) (s : SourceSet) (path : String) :
    SourceSet → Except AccessFault SourceId → Prop where
  | complete {text : String} (read : t.readText path = .ok text) :
      FileOutcome t s path (s.withFiles [(path, text)]) (.ok s.size)
  | broken {reason : ReadFault} (failed : t.readText path = .error reason) :
      FileOutcome t s path s (.error (.unreadable path reason))

theorem addFile_outcome (t : FileTree) (s : SourceSet) (path : String) :
    FileOutcome t s path (s.addFile t path).1 (s.addFile t path).2 := by
  cases hread : t.readText path with
  | error reason =>
    rw [addFile_of_error hread]
    exact .broken hread
  | ok text =>
    rw [addFile_of_ok hread]
    exact .complete hread

def Reads (t : FileTree) (files : List (String × String)) : Prop :=
  ∀ file ∈ files, t.readText file.1 = .ok file.2

/-- Whether files can be read up to one that cannot. -/
structure BreaksAt (t : FileTree) (paths : List String) (files : List (String × String))
    (path : String) (reason : ReadFault) : Prop where
  reads : Reads t files
  broken : t.readText path = .error reason
  split : ∃ later, paths = files.map Prod.fst ++ path :: later

/-- Files are added up to the first one that cannot be read. -/
private theorem addFiles_cases (t : FileTree) (s : SourceSet) (paths : List String) :
    (∃ files, files.map Prod.fst = paths ∧ Reads t files ∧
      s.addFiles t paths = (s.withFiles files, none)) ∨
    ∃ files path reason, BreaksAt t paths files path reason ∧
      s.addFiles t paths = (s.withFiles files, some (.unreadable path reason)) := by
  induction paths generalizing s with
  | nil => exact .inl ⟨[], rfl, by simp [Reads], by simp [addFiles]⟩
  | cons path paths ih =>
    cases hread : t.readText path with
    | error reason =>
      refine .inr ⟨[], path, reason, ⟨by simp [Reads], hread, paths, rfl⟩, ?_⟩
      rw [addFiles, addFile_of_error hread, withFiles_nil]
    | ok text =>
      have hstep : s.addFiles t (path :: paths) =
          (s.withFiles [(path, text)]).addFiles t paths := by
        rw [addFiles, addFile_of_ok hread]
      rcases ih (s.withFiles [(path, text)]) with
        ⟨files, rfl, hreads, hadd⟩ | ⟨files, broken, reason, hbreaks, hadd⟩
      · refine .inl ⟨(path, text) :: files, rfl, List.forall_mem_cons.mpr ⟨hread, hreads⟩, ?_⟩
        rw [hstep, hadd, ← withFiles_cons]
      · obtain ⟨hreads, hbroken, later, rfl⟩ := hbreaks
        refine .inr ⟨(path, text) :: files, broken, reason,
          ⟨List.forall_mem_cons.mpr ⟨hread, hreads⟩, hbroken, later, rfl⟩, ?_⟩
        rw [hstep, hadd, ← withFiles_cons]

/-- What a call for a directory does. -/
inductive DirectoryOutcome (t : FileTree) (o : Options) (s : SourceSet) (directory : String) :
    SourceSet → Except AccessFault Nat → Prop where
  /-- All collected files can be read. -/
  | complete {files : List (String × String)}
      (collected : t.definitionFiles o directory = .ok (files.map Prod.fst))
      (sorted : FileTree.IsSorted (files.map Prod.fst)) (reads : Reads t files) :
      DirectoryOutcome t o s directory (s.withFiles files) (.ok files.length)
  /-- One of the collected files is the first that cannot be read. -/
  | broken {paths : List String} {files : List (String × String)} {path : String}
      {reason : ReadFault} (collected : t.definitionFiles o directory = .ok paths)
      (sorted : FileTree.IsSorted paths) (breaks : BreaksAt t paths files path reason) :
      DirectoryOutcome t o s directory (s.withFiles files) (.error (.unreadable path reason))
  /-- The directory cannot be searched. -/
  | uncollected {fault : AccessFault} (failed : t.definitionFiles o directory = .error fault) :
      DirectoryOutcome t o s directory s (.error fault)

theorem addDirectory_outcome (t : FileTree) (o : Options) (s : SourceSet) (directory : String) :
    DirectoryOutcome t o s directory (s.addDirectory t o directory).1
      (s.addDirectory t o directory).2 := by
  cases hpaths : t.definitionFiles o directory with
  | error fault =>
    simp only [addDirectory, hpaths]
    exact .uncollected hpaths
  | ok paths =>
    rcases addFiles_cases t s paths with
      ⟨files, rfl, hreads, hadd⟩ | ⟨files, path, reason, hbreaks, hadd⟩
    · simp only [addDirectory, hpaths, hadd, List.length_map]
      exact .complete hpaths (FileTree.isSorted_definitionFiles hpaths) hreads
    · simp only [addDirectory, hpaths, hadd]
      exact .broken hpaths (FileTree.isSorted_definitionFiles hpaths) hbreaks

/-! ## What every call does -/

/-- Whether a set comes from another one by sources at the end that continue its numbers. -/
def Grows (s s' : SourceSet) : Prop :=
  ∃ new : List Source, s'.sources = s.sources ++ new ∧
    ∀ (i : Nat) (source : Source), new[i]? = some source → source.id = s.size + i

private theorem Grows.refl (s : SourceSet) : s.Grows s :=
  ⟨[], (List.append_nil _).symm, fun i source hsource => by cases hsource⟩

private theorem grows_addText (s : SourceSet) (name text : String) :
    s.Grows (s.addText name text).1 := by
  refine ⟨[⟨s.size, name, none, text⟩], rfl, fun i source hsource => ?_⟩
  cases i with
  | zero =>
    cases hsource
    rfl
  | succ i => cases hsource

private theorem grows_withFiles (s : SourceSet) (files : List (String × String)) :
    s.Grows (s.withFiles files) := by
  refine ⟨_, rfl, fun i source hsource => ?_⟩
  rw [List.getElem?_map, List.getElem?_zipIdx, Option.map_map] at hsource
  obtain ⟨file, -, rfl⟩ := Option.map_eq_some_iff.mp hsource
  rfl

private theorem FileOutcome.grows {s' : SourceSet} {answer : Except AccessFault SourceId}
    (h : FileOutcome t s path s' answer) : s.Grows s' := by
  cases h with
  | complete _ => exact s.grows_withFiles _
  | broken _ => exact .refl s

private theorem DirectoryOutcome.grows {s' : SourceSet} {answer : Except AccessFault Nat}
    (h : DirectoryOutcome t o s directory s' answer) : s.Grows s' := by
  cases h with
  | complete _ _ _ => exact s.grows_withFiles _
  | broken _ _ _ => exact s.grows_withFiles _
  | uncollected _ => exact .refl s

theorem grows_apply (s : SourceSet) : (a : Addition) → s.Grows (a.apply s)
  | .text name content => s.grows_addText name content
  | .file tree path => (addFile_outcome tree s path).grows
  | .directory tree options path => (addDirectory_outcome tree options s path).grows

theorem Grows.prefix_sources {s' : SourceSet} (h : s.Grows s') : s.sources <+: s'.sources := by
  obtain ⟨new, hnew, -⟩ := h
  exact ⟨new, hnew.symm⟩

private theorem IsDense.grows {s' : SourceSet} (hs : s.IsDense) (h : s.Grows s') : s'.IsDense := by
  obtain ⟨new, hnew, hid⟩ := h
  intro i source hsource
  rw [hnew] at hsource
  rcases Nat.lt_or_ge i s.sources.length with hlt | hge
  · rw [List.getElem?_append_left hlt] at hsource
    exact hs i source hsource
  · rw [List.getElem?_append_right hge] at hsource
    rw [hid _ source hsource]
    exact Nat.add_sub_of_le hge

/-! ## Runs -/

private theorem ofAdditions_concat (additions : List Addition) (a : Addition) :
    ofAdditions (additions ++ [a]) = a.apply (ofAdditions additions) := by
  rw [ofAdditions, List.foldl_concat, ← ofAdditions]

theorem isDense_ofAdditions (additions : List Addition) : (ofAdditions additions).IsDense := by
  induction additions using List.reverseRecOn with
  | nil => exact fun i source hsource => by cases hsource
  | append_singleton additions a ih =>
    rw [ofAdditions_concat]
    exact ih.grows (grows_apply _ a)

theorem prefix_ofAdditions (additions later : List Addition) :
    (ofAdditions additions).sources <+: (ofAdditions (additions ++ later)).sources := by
  induction later using List.reverseRecOn with
  | nil => exact (List.append_nil additions).symm ▸ List.prefix_rfl
  | append_singleton later a ih =>
    rw [← List.append_assoc, ofAdditions_concat]
    exact ih.trans (grows_apply _ a).prefix_sources

end SourceSet

end UiCatalog
