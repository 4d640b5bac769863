import Mathlib.Data.List.Lex
import Mathlib.Data.List.Nodup
import UiCatalog.Loading
import UiCatalog.Proofs.FileTree.Reordered
/-!
# What a directory contributes

The definition files of a directory that can be listed all the way down are exactly the files with
an accepted extension that are reached through real directories, each once, in the order of their
paths. The order in which directories list their entries has no influence on them, nor on the
sources that they become.
-/

namespace UiCatalog

namespace FileTree

/-- Whether a node under a path counts as a definition file. A link counts unless it leads to a
directory. -/
structure IsDefinitionFile (t : FileTree) (o : Options) (path : String) (node : FileNode) :
    Prop where
  notDirectory : ∀ inner, node ≠ .directory inner
  notLinked : ∀ target, node = .link target → ∀ here, t.find path ≠ .ok (.directory here)
  accepted : EndsAccepted o path

/-- Whether paths are the definition files of a directory in their order. -/
structure Collects (t : FileTree) (o : Options) (directory : String) (paths : List String) :
    Prop where
  exact : ∀ path, path ∈ paths ↔ ∃ node, t.Reaches directory path node ∧
    t.IsDefinitionFile o path node
  once : paths.Nodup
  sorted : paths.Pairwise fun a b => pathNames a < pathNames b

variable {t t' : FileTree} {o : Options} {directory : String} {paths : List String}
  {entries : Listing}

private theorem filesFrom_eq {pending : List (String × Listing)} (hknown : t.Known pending) :
    t.filesFrom o pending = .ok (((nodesFrom pending).filter (t.counts o)).map Prod.fst) := by
  fun_induction filesFrom t o pending with
  | case1 => simp [nodesFrom]
  | case2 path entries pending reason hfault =>
    cases hfault.symm.trans (hknown path entries List.mem_cons_self).1
  | case3 path entries pending _ _ files ih =>
    rw [nodesFrom, ih hknown.descend, List.filter_append, List.map_append]
    rfl

private theorem isDirectory_iff {path : String} :
    t.isDirectory path = true ↔ ∃ here, t.find path = .ok (.directory here) := by
  rw [isDirectory, readDirectory]
  split <;> simp_all [Except.isOk, Except.toBool]

private theorem counts_iff {path : String} {node : FileNode}
    (hreaches : t.Reaches directory path node) :
    t.counts o (path, node) = true ↔ t.IsDefinitionFile o path node := by
  obtain ⟨parent, name, rfl⟩ := hreaches.exists_joinPath
  have haccepted := hasAcceptedExtension_joinPath o parent name
  cases node with
  | file content =>
    rw [counts, haccepted]
    exact ⟨fun h => ⟨by simp, by simp, h⟩, fun h => h.accepted⟩
  | link target =>
    rw [counts, Bool.and_eq_true, haccepted, Bool.not_eq_true', Bool.eq_false_iff, Ne,
      isDirectory_iff]
    constructor
    · rintro ⟨hlinked, h⟩
      exact ⟨by simp, fun _ _ here hhere => hlinked ⟨here, hhere⟩, h⟩
    · intro h
      exact ⟨fun ⟨here, hhere⟩ => h.notLinked target rfl here hhere, h.accepted⟩
  | directory inner =>
    exact ⟨fun h => (Bool.false_ne_true h).elim, fun h => (h.notDirectory inner rfl).elim⟩

/-- Whether of two paths the later one never comes first, part by part. -/
def IsSorted (paths : List String) : Prop :=
  paths.Pairwise fun a b => ¬pathNames b < pathNames a

private theorem pathLe_iff {a b : String} : pathLe a b = true ↔ ¬pathNames b < pathNames a := by
  simp [pathLe]

private theorem isSorted_mergeSort (paths : List String) : IsSorted (paths.mergeSort pathLe) := by
  refine (List.pairwise_mergeSort ?_ ?_ paths).imp pathLe_iff.mp
  · intro a b c hab hbc
    rw [pathLe_iff] at hab hbc ⊢
    exact List.le_trans hab hbc
  · intro a b
    rw [Bool.or_eq_true, pathLe_iff, pathLe_iff]
    exact List.le_total (pathNames a) (pathNames b)

example : pathNames "a/z.ci" < pathNames "a.ci" := by decide

private theorem collects_nodesFrom (hknown : t.Known [(directory, entries)]) :
    t.Collects o directory ((((nodesFrom [(directory, entries)]).filter (t.counts o)).map
      Prod.fst).mergeSort pathLe) := by
  have hnames : ((((nodesFrom [(directory, entries)]).filter (t.counts o)).map Prod.fst).map
      pathNames).Nodup := by
    rw [List.map_map]
    have hapart : Apart ([(directory, entries)].map Prod.fst) := List.pairwise_singleton _ _
    exact (List.filter_sublist.map _).nodup (nodup_nodesFrom hknown hapart)
  have hsorted := ((List.mergeSort_perm _ pathLe).map pathNames).nodup_iff.mpr hnames
  have hmet (path : String) (node : FileNode) :
      (path, node) ∈ nodesFrom [(directory, entries)] ↔ t.Reaches directory path node := by
    simp [mem_nodesFrom hknown]
  refine ⟨fun path => ?_, List.Nodup.of_map _ hsorted, ?_⟩
  · rw [List.mem_mergeSort, List.mem_map]
    constructor
    · rintro ⟨⟨path, node⟩, hmem, rfl⟩
      obtain ⟨hmem, hcounts⟩ := List.mem_filter.mp hmem
      have hreaches := (hmet path node).mp hmem
      exact ⟨node, hreaches, (counts_iff hreaches).mp hcounts⟩
    · rintro ⟨node, hreaches, hfile⟩
      exact ⟨(path, node), List.mem_filter.mpr ⟨(hmet path node).mpr hreaches,
        (counts_iff hreaches).mpr hfile⟩, rfl⟩
  · exact ((isSorted_mergeSort _).and (List.pairwise_map.mp hsorted)).imp
      fun ⟨hle, hne⟩ => (List.le_iff_lt_or_eq.mp hle).resolve_right hne

private theorem definitionFiles_collects (o : Options) (hlistable : t.Listable directory) :
    ∃ paths, t.definitionFiles o directory = .ok paths ∧ t.Collects o directory paths := by
  obtain ⟨entries, hlisted⟩ := hlistable.listed
  have hknown := known_singleton hlistable hlisted
  refine ⟨_, ?_, collects_nodesFrom hknown⟩
  rw [definitionFiles, hlisted]
  dsimp only
  rw [filesFrom_eq hknown]
  rfl

/-- What is found in a directory is sorted, also where not everything is found. -/
theorem isSorted_definitionFiles (h : t.definitionFiles o directory = .ok paths) :
    IsSorted paths := by
  rw [definitionFiles] at h
  split at h
  · cases h
  · rename_i entries _
    cases hfiles : t.filesFrom o [(directory, entries)] with
    | error fault =>
      rw [hfiles] at h
      cases h
    | ok files =>
      rw [hfiles] at h
      cases h
      exact isSorted_mergeSort files

/-- At most one list holds the definition files in their order. -/
private theorem Collects.unique {paths' : List String} (h : t.Collects o directory paths)
    (h' : t.Collects o directory paths') : paths = paths' := by
  have hperm : paths.Perm paths' := by
    rw [List.perm_ext_iff_of_nodup h.once h'.once]
    exact fun path => (h.exact path).trans (h'.exact path).symm
  refine hperm.eq_of_pairwise (fun a b _ _ hab hba => ?_) h.sorted h'.sorted
  exact absurd hba (List.lt_asymm hab)

/-! ## Other orders -/

private theorem IsDefinitionFile.congr {path : String} {node node' : FileNode}
    (hreordered : t.Reordered t') (hnode : node'.shown = node.shown)
    (h : t.IsDefinitionFile o path node) : t'.IsDefinitionFile o path node' := by
  rcases FileNode.eq_or_directory hnode with rfl | ⟨inner, -, rfl, -⟩
  · refine ⟨h.notDirectory, fun target htarget here => ?_, h.accepted⟩
    rw [hreordered.find_eq]
    exact h.notLinked target htarget here
  · exact absurd rfl (h.notDirectory inner)

private theorem Collects.reordered (hreordered : t.Reordered t')
    (h : t.Collects o directory paths) : t'.Collects o directory paths := by
  refine ⟨fun path => (h.exact path).trans ⟨?_, ?_⟩, h.once, h.sorted⟩
  · rintro ⟨node, hreaches, hfile⟩
    obtain ⟨node', hreaches', hnode⟩ := hreordered.reaches hreaches
    exact ⟨node', hreaches', hfile.congr hreordered hnode⟩
  · rintro ⟨node, hreaches, hfile⟩
    obtain ⟨node', hreaches', hnode⟩ := hreordered.symm.reaches hreaches
    exact ⟨node', hreaches', hfile.congr hreordered.symm hnode⟩

private theorem Reordered.definitionFiles_eq (hlistable : t.Listable directory)
    (h : t.Reordered t') : t'.definitionFiles o directory = t.definitionFiles o directory := by
  obtain ⟨paths, hpaths, hcollects⟩ := definitionFiles_collects o hlistable
  obtain ⟨paths', hpaths', hcollects'⟩ := definitionFiles_collects o (h.listable hlistable)
  rw [hpaths, hpaths', (hcollects.reordered h).unique hcollects']

end FileTree

namespace SourceSet

variable {t t' : FileTree} {o : Options} {directory : String}

private theorem addFiles_reordered (h : t.Reordered t') (s : SourceSet) (paths : List String) :
    s.addFiles t' paths = s.addFiles t paths := by
  induction paths generalizing s with
  | nil => rfl
  | cons path paths ih => simp only [addFiles, addFile, h.readText_eq, ih]

private theorem addDirectory_reordered (hlistable : t.Listable directory) (h : t.Reordered t')
    (s : SourceSet) : s.addDirectory t' o directory = s.addDirectory t o directory := by
  simp only [addDirectory, h.definitionFiles_eq hlistable, addFiles_reordered h]

end SourceSet

/-- Whether a directory contributes the same in two trees: the same files, hence the same sources,
hence the same entity for each name, whichever of its definitions comes first. -/
structure FileTree.ContributesAlike (t t' : FileTree) (o : Options) (directory : String) :
    Prop where
  files : t'.definitionFiles o directory = t.definitionFiles o directory
  sources : ∀ s : SourceSet, s.addDirectory t' o directory = s.addDirectory t o directory
  winners : ∀ (s : SourceSet) (load : Options) (name : String),
    ((s.addDirectory t' o directory).1.load load).catalog.get? name =
      ((s.addDirectory t o directory).1.load load).catalog.get? name

/-- A directory that can be listed all the way down contributes its definition files, in whatever
order directories list their entries. -/
theorem FileTree.definitionFiles_exact (t : FileTree) (o : Options) (directory : String)
    (hlistable : t.Listable directory) :
    ∃ paths, t.definitionFiles o directory = .ok paths ∧ t.Collects o directory paths ∧
      ∀ t', t.Reordered t' → t.ContributesAlike t' o directory := by
  obtain ⟨paths, hpaths, hcollects⟩ := definitionFiles_collects o hlistable
  refine ⟨paths, hpaths, hcollects, fun t' hreordered => ?_⟩
  have hsources := SourceSet.addDirectory_reordered (o := o) hlistable hreordered
  exact ⟨hreordered.definitionFiles_eq hlistable, hsources,
    fun s load name => by rw [hsources s]⟩

private def EntryName.work : EntryName :=
  ⟨"work", by decide⟩

private def EntryName.ui : EntryName :=
  ⟨"ui", by decide⟩

private def EntryName.a : EntryName :=
  ⟨"a", by decide⟩

/-- Entries of which one is a link back to the directory that holds them. -/
def Listing.inner : Listing :=
  [(⟨"z.ci", by decide⟩, .file ⟨#[]⟩), (⟨"here", by decide⟩, .link "../a")]

/-- Entries with a linked file and with links from the root, back to the directory that holds them
and to the one above it. -/
def Listing.outer : Listing :=
  [(⟨"a.ci", by decide⟩, .file ⟨#[]⟩), (⟨"b.CI", by decide⟩, .link "a.ci"),
    (⟨"loop.ci", by decide⟩, .link "/work/ui"), (⟨"above.ci", by decide⟩, .link "/work"),
    (.a, .directory inner)]

private theorem Listing.outer_isDistinct : FileNode.IsDistinct (.directory outer) := by
  have hinner : FileNode.IsDistinct (.directory inner) :=
    .directory (by decide) (by simp [inner, FileNode.IsDistinct.file, FileNode.IsDistinct.link])
  exact .directory (by decide)
    (by simp [outer, FileNode.IsDistinct.file, FileNode.IsDistinct.link, hinner])

def FileTree.looped : FileTree where
  root := [(.work, .directory [(.ui, .directory Listing.outer)])]
  distinct := .directory (by decide) (List.forall_mem_singleton.mpr
    (.directory (by decide) (List.forall_mem_singleton.mpr Listing.outer_isDistinct)))
  home := ⟨[.work]⟩

private theorem FileTree.looped_readDirectory (path : String) (names : List EntryName)
    (hzero : '\x00' ∉ path.toList) (hsize : path.utf8ByteSize ≤ pathLimit)
    (hroot : path.startsWith "/" = true) (hsteps : pathSteps path = names.map .entry)
    (hfollow : looped.follow linkLimit .root (names.map .entry) = .ok (.directory ⟨names⟩)) :
    looped.readDirectory path = .ok (listingAt names looped.root) := by
  have hne : path ≠ "" := by
    rintro rfl
    exact absurd hroot (by decide +kernel)
  have hfind : looped.find path = .ok (.directory ⟨names⟩) := by
    rw [find, if_neg hzero, if_neg hne, if_neg hsize.not_gt, Location.start, if_pos hroot, hsteps,
      hfollow]
  exact readDirectory_eq_ok.mpr ⟨_, hfind, rfl⟩

private theorem FileTree.looped_listable : looped.Listable "/work/ui" := by
  have houter : looped.readDirectory "/work/ui" = .ok Listing.outer :=
    looped_readDirectory "/work/ui" [.work, .ui] (by decide) (by decide) (by decide +kernel)
      (by decide) rfl
  have hinner : looped.readDirectory "/work/ui/a" = .ok Listing.inner :=
    looped_readDirectory "/work/ui/a" [.work, .ui, .a] (by decide) (by decide)
      (by decide +kernel) (by decide) rfl
  have hjoin {name : EntryName} (h : name = .a) :
      joinPath "/work/ui" name = "/work/ui/a" := by
    rw [h]
    decide +kernel
  refine ⟨⟨_, houter⟩, fun path inner hreaches => ?_⟩
  cases hreaches with
  | entry hlisted hmem =>
    cases houter.symm.trans hlisted
    simp only [Listing.outer, List.mem_cons, Prod.mk.injEq, reduceCtorEq, and_false, false_or,
      List.not_mem_nil, or_false] at hmem
    exact ⟨_, hjoin hmem.1 ▸ hinner⟩
  | inner hlisted hmem hreaches =>
    cases houter.symm.trans hlisted
    simp only [Listing.outer, List.mem_cons, Prod.mk.injEq, reduceCtorEq, and_false, false_or,
      List.not_mem_nil, or_false] at hmem
    rw [hjoin hmem.1] at hreaches
    cases hreaches with
    | entry hlisted hmem =>
      cases hinner.symm.trans hlisted
      simp [Listing.inner] at hmem
    | inner hlisted hmem _ =>
      cases hinner.symm.trans hlisted
      simp [Listing.inner] at hmem

theorem FileTree.definitionFiles_looped :
    looped.Listable "/work/ui" ∧
      ∃ paths, looped.definitionFiles Options.standard "/work/ui" = .ok paths ∧
        looped.Collects Options.standard "/work/ui" paths ∧
        ∀ t', looped.Reordered t' → looped.ContributesAlike t' Options.standard "/work/ui" :=
  ⟨looped_listable, definitionFiles_exact looped Options.standard "/work/ui" looped_listable⟩

end UiCatalog
