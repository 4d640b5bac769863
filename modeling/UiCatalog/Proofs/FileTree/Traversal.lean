import UiCatalog.Proofs.FileTree.Walk
/-!
# Traversal of real directories

A traversal that descends into every directory it meets, and into no link, meets exactly the entries
that are reached from where it starts through real directories. No two of them have the same path.
-/

namespace UiCatalog.FileTree

/-- An entry of a directory, or of a real directory on the way below it, under its path. -/
inductive Reaches (t : FileTree) : String → String → FileNode → Prop where
  | entry {directory : String} {name : EntryName} {node : FileNode} {entries : Listing}
      (listed : t.readDirectory directory = .ok entries) (mem : (name, node) ∈ entries) :
      Reaches t directory (joinPath directory name) node
  | inner {directory path : String} {name : EntryName} {node : FileNode} {entries inner : Listing}
      (listed : t.readDirectory directory = .ok entries)
      (mem : (name, .directory inner) ∈ entries)
      (reaches : Reaches t (joinPath directory name) path node) :
      Reaches t directory path node

/-- Whether a directory and all real directories below it can be listed. -/
structure Listable (t : FileTree) (directory : String) : Prop where
  listed : ∃ entries, t.readDirectory directory = .ok entries
  below : ∀ path inner, t.Reaches directory path (.directory inner) →
    ∃ entries, t.readDirectory path = .ok entries

variable {t : FileTree} {directory path : String} {entries : Listing} {node : FileNode}

theorem Reaches.exists_joinPath (h : t.Reaches directory path node) :
    ∃ parent name, path = joinPath parent name := by
  induction h with
  | entry _ _ => exact ⟨_, _, rfl⟩
  | inner _ _ _ ih => exact ih

private theorem Reaches.exists_pathNames (h : t.Reaches directory path node) :
    ∃ name later, pathNames path = pathNames directory ++ name :: later := by
  induction h with
  | entry _ _ => exact ⟨_, [], pathNames_joinPath _ _⟩
  | inner _ _ _ ih =>
    obtain ⟨name, later, hpath⟩ := ih
    rw [pathNames_joinPath, List.append_assoc, List.singleton_append] at hpath
    exact ⟨_, _, hpath⟩

private theorem mem_under : (path, node) ∈ under directory entries ↔
    ∃ name, (name, node) ∈ entries ∧ joinPath directory name = path := by
  simp only [under, List.mem_map, Prod.exists, Prod.mk.injEq]
  constructor
  · rintro ⟨name, node, hmem, rfl, rfl⟩
    exact ⟨name, hmem, rfl⟩
  · rintro ⟨name, hmem, rfl⟩
    exact ⟨name, node, hmem, rfl, rfl⟩

private theorem mem_directoriesIn {inner : Listing} :
    (path, inner) ∈ directoriesIn directory entries ↔
      ∃ name, (name, .directory inner) ∈ entries ∧ joinPath directory name = path := by
  rw [← mem_under, directoriesIn, List.mem_filterMap]
  constructor
  · rintro ⟨⟨path', node⟩, hmem, heq⟩
    cases node <;> cases heq
    exact hmem
  · intro hmem
    exact ⟨_, hmem, rfl⟩

private theorem reaches_iff_of_listed (hlisted : t.readDirectory directory = .ok entries) :
    t.Reaches directory path node ↔ (path, node) ∈ under directory entries ∨
      ∃ above inner, (above, inner) ∈ directoriesIn directory entries ∧
        t.Reaches above path node := by
  constructor
  · intro h
    cases h with
    | entry hlisted' hmem =>
      cases hlisted.symm.trans hlisted'
      exact .inl (mem_under.mpr ⟨_, hmem, rfl⟩)
    | inner hlisted' hmem hreaches =>
      cases hlisted.symm.trans hlisted'
      exact .inr ⟨_, _, mem_directoriesIn.mpr ⟨_, hmem, rfl⟩, hreaches⟩
  · rintro (hmem | ⟨above, inner, hmem, hreaches⟩)
    · obtain ⟨name, hentry, rfl⟩ := mem_under.mp hmem
      exact .entry hlisted hentry
    · obtain ⟨name, hentry, rfl⟩ := mem_directoriesIn.mp hmem
      exact .inner hlisted hentry hreaches

/-! ## Pending directories -/

/-- Whether pending directories are what is listed under their paths, down to the last one below. -/
def Known (t : FileTree) (pending : List (String × Listing)) : Prop :=
  ∀ path entries, (path, entries) ∈ pending →
    t.readDirectory path = .ok entries ∧ t.Listable path

theorem known_singleton (hlistable : t.Listable directory)
    (hlisted : t.readDirectory directory = .ok entries) : t.Known [(directory, entries)] := by
  intro path inner hmem
  cases List.mem_singleton.mp hmem
  exact ⟨hlisted, hlistable⟩

/-- A step of the traversal replaces a directory by those in it. -/
theorem Known.descend {pending : List (String × Listing)}
    (h : t.Known ((path, entries) :: pending)) :
    t.Known ((directoriesIn path entries).reverse ++ pending) := by
  obtain ⟨hlisted, hlistable⟩ := h path entries List.mem_cons_self
  intro deeper inner hmem
  rcases List.mem_append.mp hmem with hmem | hmem
  · obtain ⟨name, hentry, rfl⟩ := mem_directoriesIn.mp (List.mem_reverse.mp hmem)
    obtain ⟨listed, hinner⟩ := hlistable.below _ inner (.entry hlisted hentry)
    obtain rfl : listed = inner := readDirectory_joinPath hlisted hentry hinner
    exact ⟨hinner, ⟨listed, hinner⟩, fun path deeper hreaches =>
      hlistable.below path deeper (.inner hlisted hentry hreaches)⟩
  · exact h deeper inner (List.mem_cons_of_mem _ hmem)

def nodesFrom (pending : List (String × Listing)) : List (String × FileNode) :=
  match pending with
  | [] => []
  | (path, entries) :: pending =>
    under path entries ++ nodesFrom ((directoriesIn path entries).reverse ++ pending)
termination_by pendingSize pending
decreasing_by exact pendingSize_descend path entries pending

/-- The traversal meets what is reached from the pending directories. -/
theorem mem_nodesFrom {pending : List (String × Listing)} (hknown : t.Known pending) :
    (path, node) ∈ nodesFrom pending ↔
      ∃ above entries, (above, entries) ∈ pending ∧ t.Reaches above path node := by
  fun_induction nodesFrom pending with
  | case1 => simp
  | case2 directory entries pending ih =>
    obtain ⟨hlisted, -⟩ := hknown directory entries List.mem_cons_self
    rw [List.mem_append, ih hknown.descend]
    constructor
    · rintro (hmem | ⟨above, inner, hmem, hreaches⟩)
      · exact ⟨directory, entries, List.mem_cons_self,
          (reaches_iff_of_listed hlisted).mpr (.inl hmem)⟩
      · rcases List.mem_append.mp hmem with hmem | hmem
        · exact ⟨directory, entries, List.mem_cons_self, (reaches_iff_of_listed hlisted).mpr
            (.inr ⟨above, inner, List.mem_reverse.mp hmem, hreaches⟩)⟩
        · exact ⟨above, inner, List.mem_cons_of_mem _ hmem, hreaches⟩
    · rintro ⟨above, inner, hmem, hreaches⟩
      rcases List.mem_cons.mp hmem with heq | hmem
      · cases heq
        refine ((reaches_iff_of_listed hlisted).mp hreaches).imp_right ?_
        rintro ⟨below, inner, hmem, hreaches⟩
        exact ⟨below, inner, List.mem_append_left _ (List.mem_reverse.mpr hmem), hreaches⟩
      · exact .inr ⟨above, inner, List.mem_append_right _ hmem, hreaches⟩

/-! ## No path twice -/

/-- Whether no path continues another one. -/
def Apart (paths : List String) : Prop :=
  paths.Pairwise fun a b => ¬pathNames a <+: pathNames b ∧ ¬pathNames b <+: pathNames a

private theorem apart_under (h : (entries.map Prod.fst).Nodup) :
    Apart ((under directory entries).map Prod.fst) := by
  rw [Apart, under, List.map_map, List.pairwise_map]
  refine (List.pairwise_map.mp h).imp fun {a b} hne => ?_
  have hne : a.1.text ≠ b.1.text := fun heq => hne (EntryName.ext heq)
  simp [pathNames_joinPath, List.prefix_append_right_inj, hne, hne.symm]

private theorem directoriesIn_sublist (directory : String) (entries : Listing) :
    ((directoriesIn directory entries).map Prod.fst).Sublist
      ((under directory entries).map Prod.fst) := by
  induction entries with
  | nil => exact List.Sublist.refl []
  | cons entry entries ih =>
    obtain ⟨name, node⟩ := entry
    cases node with
    | file content => exact ih.cons _
    | link target => exact ih.cons _
    | directory inner => exact ih.cons_cons _

private theorem Apart.descend (h : (entries.map Prod.fst).Nodup)
    {pending : List (String × Listing)}
    (hapart : Apart (((path, entries) :: pending).map Prod.fst)) :
    Apart (((directoriesIn path entries).reverse ++ pending).map Prod.fst) := by
  obtain ⟨hpath, hpending⟩ := List.pairwise_cons.mp hapart
  rw [List.map_append, List.map_reverse]
  refine List.pairwise_append.mpr ⟨?_, hpending, ?_⟩
  · rw [List.pairwise_reverse]
    exact ((apart_under h).sublist (directoriesIn_sublist path entries)).imp And.symm
  · intro inner hinner later hlater
    obtain ⟨⟨_, _⟩, hmem, rfl⟩ := List.mem_map.mp (List.mem_reverse.mp hinner)
    obtain ⟨name, -, rfl⟩ := mem_directoriesIn.mp hmem
    obtain ⟨hdown, hup⟩ := hpath later hlater
    rw [pathNames_joinPath, List.prefix_concat_iff, not_or]
    refine ⟨fun hprefix => hdown ((List.prefix_append _ _).trans hprefix), ?_, hup⟩
    exact fun heq => hdown (heq ▸ List.prefix_append _ _)

theorem nodup_nodesFrom {pending : List (String × Listing)} (hknown : t.Known pending)
    (hapart : Apart (pending.map Prod.fst)) :
    ((nodesFrom pending).map fun e => pathNames e.1).Nodup := by
  fun_induction nodesFrom pending with
  | case1 => exact List.nodup_nil
  | case2 directory entries pending ih =>
    have hdistinct := nodup_of_readDirectory (hknown directory entries List.mem_cons_self).1
    have hunder : ((under directory entries).map fun e => pathNames e.1).Nodup := by
      refine List.pairwise_map.mpr ((List.pairwise_map.mp (apart_under hdistinct)).imp ?_)
      exact fun h heq => h.1 (heq ▸ List.prefix_rfl)
    rw [List.map_append]
    refine List.nodup_append.mpr ⟨hunder, ih hknown.descend (hapart.descend hdistinct), ?_⟩
    intro a ha b hb heq
    obtain ⟨⟨_, node⟩, hmem, rfl⟩ := List.mem_map.mp ha
    obtain ⟨name, -, rfl⟩ := mem_under.mp hmem
    obtain ⟨⟨met, node'⟩, hmet, rfl⟩ := List.mem_map.mp hb
    obtain ⟨above, inner, habove, hreaches⟩ := (mem_nodesFrom hknown.descend).mp hmet
    obtain ⟨first, later, hmet⟩ := hreaches.exists_pathNames
    rw [hmet, pathNames_joinPath] at heq
    rcases List.mem_append.mp habove with habove | habove
    · obtain ⟨name', -, rfl⟩ := mem_directoriesIn.mp (List.mem_reverse.mp habove)
      have hlength := congrArg List.length heq
      simp [pathNames_joinPath] at hlength
    · have hup := ((List.pairwise_cons.mp hapart).1 above (List.mem_map_of_mem habove)).2
      have hfront : pathNames directory = (pathNames above ++ first :: later).dropLast := by
        rw [← heq, List.dropLast_concat]
      rw [List.dropLast_append_of_ne_nil (List.cons_ne_nil first later)] at hfront
      exact hup (hfront ▸ List.prefix_append _ _)

end UiCatalog.FileTree
