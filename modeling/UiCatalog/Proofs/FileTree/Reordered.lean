import UiCatalog.Proofs.FileTree.Traversal
/-!
# The order of listings

Two trees may hold the same and list it in different orders. Every path leads to the same place in
both of them, and the same paths are reached.
-/

namespace UiCatalog

/-- What a listing shows of a node: what it is, and nothing of what is below it. -/
def FileNode.shown : FileNode → FileNode
  | .file content => .file content
  | .link target => .link target
  | .directory _ => .directory []

theorem FileNode.eq_or_directory {node node' : FileNode} (h : node'.shown = node.shown) :
    node' = node ∨ ∃ inner inner', node = .directory inner ∧ node' = .directory inner' := by
  cases node <;> cases node' <;> simp_all [FileNode.shown]

private theorem FileNode.shown_eq_directory {node : FileNode} {inner : Listing}
    (h : node.shown = (FileNode.directory inner).shown) : ∃ inner', node = .directory inner' := by
  cases node <;> simp_all [FileNode.shown]

def Listing.shown (entries : Listing) : Listing :=
  entries.map fun entry => (entry.1, entry.2.shown)

private theorem Listing.map_fst_shown (entries : Listing) :
    entries.shown.map Prod.fst = entries.map Prod.fst := by
  simp [Listing.shown, Function.comp_def]

private theorem Listing.lookup_shown (entries : Listing) (name : EntryName) :
    entries.shown.lookup name = (entries.lookup name).map FileNode.shown := by
  induction entries with
  | nil => rfl
  | cons entry entries ih =>
    obtain ⟨first, node⟩ := entry
    simp only [Listing.shown, List.map_cons, List.lookup_cons] at ih ⊢
    cases name == first
    · exact ih
    · rfl

private theorem Listing.lookup_perm {entries listed : Listing} (h : (entries.map Prod.fst).Nodup)
    (hperm : entries.Perm listed) (name : EntryName) :
    listed.lookup name = entries.lookup name := by
  apply Option.ext
  intro node
  rw [lookup_eq_some_iff h, lookup_eq_some_iff ((hperm.map Prod.fst).nodup_iff.mp h),
    hperm.mem_iff]

namespace FileTree

/-- Whether two trees have one working directory, and every directory lists the same in both, in
whatever order. -/
structure Reordered (t t' : FileTree) : Prop where
  home : t'.home = t.home
  listings : ∀ here, (t.listing here).shown.Perm (t'.listing here).shown

variable {t t' : FileTree}

theorem Reordered.symm (h : t.Reordered t') : t'.Reordered t :=
  ⟨h.home.symm, fun here => (h.listings here).symm⟩

private theorem Reordered.lookup_shown (h : t.Reordered t') (here : Location) (name : EntryName) :
    ((t'.listing here).lookup name).map FileNode.shown =
      ((t.listing here).lookup name).map FileNode.shown := by
  have hshown : ((t.listing here).shown.map Prod.fst).Nodup := by
    rw [Listing.map_fst_shown]
    exact t.nodup_listing here
  rw [← Listing.lookup_shown, ← Listing.lookup_shown]
  exact Listing.lookup_perm hshown (h.listings here) name

private theorem Reordered.follow_eq (h : t.Reordered t') (links : Nat) (here : Location)
    (steps : List Step) : t'.follow links here steps = t.follow links here steps := by
  induction links using Nat.strongRecOn generalizing here steps with
  | _ links through =>
    induction steps generalizing here with
    | nil => rw [follow_nil, follow_nil]
    | cons step steps ih =>
      cases step with
      | stay => rw [follow_stay, follow_stay, ih]
      | up => rw [follow_up, follow_up, ih]
      | entry name =>
        have hshown := h.lookup_shown here name
        simp only [follow_entry, ih]
        cases hlookup : (t.listing here).lookup name with
        | none =>
          rw [hlookup, Option.map_none, Option.map_eq_none_iff] at hshown
          rw [hshown]
        | some node =>
          rw [hlookup, Option.map_some, Option.map_eq_some_iff] at hshown
          obtain ⟨node', hlookup', hnode⟩ := hshown
          rw [hlookup']
          rcases FileNode.eq_or_directory hnode with rfl | ⟨inner, inner', rfl, rfl⟩
          · cases node' with
            | file content => rfl
            | link target =>
              cases links with
              | zero => rfl
              | succ links => simp only [through links (Nat.lt_succ_self links)]
            | directory inner => rfl
          · rfl

theorem Reordered.find_eq (h : t.Reordered t') (path : String) : t'.find path = t.find path := by
  simp only [find, h.home, h.follow_eq]

theorem Reordered.readText_eq (h : t.Reordered t') (path : String) :
    t'.readText path = t.readText path := by
  simp only [readText, h.find_eq]

private theorem Reordered.readDirectory (h : t.Reordered t') {path : String} {entries : Listing}
    (hlisted : t.readDirectory path = .ok entries) :
    ∃ entries', t'.readDirectory path = .ok entries' ∧ entries.shown.Perm entries'.shown := by
  obtain ⟨here, hfind, rfl⟩ := readDirectory_eq_ok.mp hlisted
  refine ⟨t'.listing here, readDirectory_eq_ok.mpr ⟨here, ?_, rfl⟩, h.listings here⟩
  rw [h.find_eq, hfind]

private theorem mem_of_perm_shown {entries entries' : Listing}
    (h : entries.shown.Perm entries'.shown) {name : EntryName} {node : FileNode}
    (hmem : (name, node) ∈ entries) :
    ∃ node', (name, node') ∈ entries' ∧ node'.shown = node.shown := by
  have hshown : (name, node.shown) ∈ entries'.shown :=
    h.mem_iff.mp (List.mem_map.mpr ⟨_, hmem, rfl⟩)
  obtain ⟨⟨name', node'⟩, hmem', heq⟩ := List.mem_map.mp hshown
  obtain ⟨rfl, hnode⟩ := Prod.mk.inj heq
  exact ⟨node', hmem', hnode⟩

theorem Reordered.reaches (h : t.Reordered t') {directory path : String} {node : FileNode}
    (hreaches : t.Reaches directory path node) :
    ∃ node', t'.Reaches directory path node' ∧ node'.shown = node.shown := by
  induction hreaches with
  | entry hlisted hmem =>
    obtain ⟨entries', hlisted', hperm⟩ := h.readDirectory hlisted
    obtain ⟨node', hmem', hnode⟩ := mem_of_perm_shown hperm hmem
    exact ⟨node', .entry hlisted' hmem', hnode⟩
  | inner hlisted hmem _ ih =>
    obtain ⟨entries', hlisted', hperm⟩ := h.readDirectory hlisted
    obtain ⟨inner', hmem', hinner⟩ := mem_of_perm_shown hperm hmem
    obtain ⟨node', hreaches', hnode⟩ := ih
    obtain ⟨inner', rfl⟩ := FileNode.shown_eq_directory hinner
    exact ⟨node', .inner hlisted' hmem' hreaches', hnode⟩

theorem Reordered.listable (h : t.Reordered t') {directory : String}
    (hlistable : t.Listable directory) : t'.Listable directory := by
  obtain ⟨entries, hlisted⟩ := hlistable.listed
  obtain ⟨entries', hlisted', -⟩ := h.readDirectory hlisted
  refine ⟨⟨entries', hlisted'⟩, fun path inner hreaches => ?_⟩
  obtain ⟨node, hreaches', hnode⟩ := h.symm.reaches hreaches
  obtain ⟨inner', rfl⟩ := FileNode.shown_eq_directory hnode
  obtain ⟨below, hbelow⟩ := hlistable.below path inner' hreaches'
  obtain ⟨below', hbelow', -⟩ := h.readDirectory hbelow
  exact ⟨below', hbelow'⟩

end FileTree

end UiCatalog
