import Mathlib.Data.List.Perm.Basic
import UiCatalog.Proofs.FileTree.Path
/-!
# Following the paths of entries

The path of a directory may lead through links. Where the path of one of its entries can be followed
as well, it leads to that entry: what is listed under the path of a directory in a listing is what
the listing holds.
-/

namespace UiCatalog

theorem Listing.lookup_eq_some_iff {entries : Listing} (h : (entries.map Prod.fst).Nodup)
    {name : EntryName} {node : FileNode} :
    entries.lookup name = some node ↔ (name, node) ∈ entries := by
  refine ⟨mem_of_lookup_eq_some, fun hmem => ?_⟩
  obtain ⟨front, back, rfl⟩ := List.append_of_mem hmem
  refine List.lookup_eq_some_iff.mpr ⟨front, back, rfl, fun entry hentry => ?_⟩
  rw [List.map_append, List.map_cons, List.nodup_append] at h
  exact bne_iff_ne.mpr (h.2.2 _ (List.mem_map_of_mem hentry) _ List.mem_cons_self).symm

namespace FileTree

variable {t : FileTree} {links : Nat} {here there : Location}

/-! ## Listings -/

private theorem isDistinct_listingAt (names : List EntryName) {entries : Listing}
    (h : FileNode.IsDistinct (.directory entries)) :
    FileNode.IsDistinct (.directory (listingAt names entries)) := by
  induction names generalizing entries with
  | nil => exact h
  | cons name names ih =>
    rw [listingAt]
    split
    · rename_i inner hinner
      cases h with
      | directory _ below => exact ih (below _ (Listing.mem_of_lookup_eq_some hinner))
    · exact .directory List.nodup_nil (List.forall_mem_nil _)

theorem nodup_listing (t : FileTree) (here : Location) :
    ((t.listing here).map Prod.fst).Nodup := by
  cases isDistinct_listingAt here.names t.distinct with
  | directory distinct _ => exact distinct

private theorem listingAt_concat (names : List EntryName) (name : EntryName) (entries : Listing) :
    listingAt (names ++ [name]) entries =
      match (listingAt names entries).lookup name with
      | some (.directory inner) => inner
      | _ => [] := by
  induction names generalizing entries with
  | nil => rfl
  | cons first names ih =>
    simp only [List.cons_append, listingAt]
    split
    · exact ih _
    · rfl

private theorem listing_child {name : EntryName} {inner : Listing}
    (h : (t.listing here).lookup name = some (.directory inner)) :
    t.listing (here.child name) = inner := by
  rw [listing] at h
  rw [listing, Location.child, listingAt_concat, h]

/-! ## Steps -/

@[simp] theorem follow_nil : t.follow links here [] = .ok (.directory here) := by
  cases links <;> rfl

@[simp] theorem follow_stay (steps : List Step) :
    t.follow links here (.stay :: steps) = t.follow links here steps := by
  cases links <;> rfl

@[simp] theorem follow_up (steps : List Step) :
    t.follow links here (.up :: steps) = t.follow links here.parent steps := by
  cases links <;> rfl

theorem follow_entry (name : EntryName) (steps : List Step) :
    t.follow links here (.entry name :: steps) =
      if nameLimit < name.text.utf8ByteSize then .error .nameTooLong
      else
        match (t.listing here).lookup name with
        | some (.directory _) => t.follow links (here.child name) steps
        | some (.link target) =>
          match links with
          | 0 => .error .tooManyLinks
          | links + 1 => t.follow links (here.start target) (pathSteps target ++ steps)
        | some (.file content) =>
          if steps = [] then .ok (.file here name content) else .error .notDirectory
        | none => if steps = [] then .ok (.free here name) else .error .notFound := by
  cases links <;> rfl

/-- Steps that lead to a directory can be taken first, with what they leave of the limit on links
for the steps after them. -/
private theorem follow_append {steps : List Step}
    (h : t.follow links here steps = .ok (.directory there)) :
    ∃ left, ∀ later, t.follow links here (steps ++ later) = t.follow left there later := by
  induction links using Nat.strongRecOn generalizing here steps with
  | _ links through =>
    induction steps generalizing here with
    | nil =>
      rw [follow_nil] at h
      cases h
      exact ⟨links, fun _ => rfl⟩
    | cons step steps ih =>
      cases step with
      | stay =>
        simp only [List.cons_append, follow_stay] at h ⊢
        exact ih h
      | up =>
        simp only [List.cons_append, follow_up] at h ⊢
        exact ih h
      | entry name =>
        rw [follow_entry] at h
        simp only [List.cons_append, follow_entry]
        by_cases hlong : nameLimit < name.text.utf8ByteSize
        · rw [if_pos hlong] at h
          cases h
        simp only [if_neg hlong] at h ⊢
        cases hlookup : (t.listing here).lookup name with
        | none =>
          simp only [hlookup] at h
          split at h <;> cases h
        | some node =>
          cases node with
          | file content =>
            simp only [hlookup] at h
            split at h <;> cases h
          | link target =>
            cases links with
            | zero =>
              simp only [hlookup] at h
              cases h
            | succ links =>
              simp only [hlookup] at h ⊢
              obtain ⟨left, hleft⟩ := through links (Nat.lt_succ_self links) h
              exact ⟨left, fun later => by rw [← hleft, List.append_assoc]⟩
          | directory inner =>
            simp only [hlookup] at h ⊢
            exact ih h

private theorem follow_append_stay (here : Location) (steps : List Step) {later : List Step}
    (hlater : later ≠ []) :
    t.follow links here (steps ++ .stay :: later) = t.follow links here (steps ++ later) := by
  induction links using Nat.strongRecOn generalizing here steps with
  | _ links through =>
    induction steps generalizing here with
    | nil => rw [List.nil_append, follow_stay, List.nil_append]
    | cons step steps ih =>
      cases step with
      | stay => simp only [List.cons_append, follow_stay, ih]
      | up => simp only [List.cons_append, follow_up, ih]
      | entry name =>
        have hends : steps ++ later ≠ [] := by simp [hlater]
        have hstays : steps ++ .stay :: later ≠ [] := by simp
        simp only [List.cons_append, follow_entry, ih, hends, hstays, if_false]
        split_ifs
        · rfl
        split
        · rfl
        · cases links with
          | zero => rfl
          | succ links =>
            rename_i target htarget
            have hlink := through links (Nat.lt_succ_self links) (here.start target)
              (pathSteps target ++ steps)
            simpa only [List.append_assoc] using hlink
        · rfl
        · rfl

/-! ## Paths -/

private theorem ne_empty_of_find_ok {path : String} {place : Place} (h : t.find path = .ok place) :
    path ≠ "" := by
  rintro rfl
  cases h

private theorem find_eq_follow {path : String} {place : Place} (h : t.find path = .ok place) :
    t.find path = t.follow linkLimit (t.home.start path) (pathSteps path) := by
  rw [find] at h ⊢
  split_ifs at h ⊢
  rfl

private theorem find_joinPath {directory : String} {name : EntryName} {place : Place}
    (hdirectory : t.find directory = .ok (.directory there))
    (hplace : t.find (joinPath directory name) = .ok place) :
    ∃ left, t.find (joinPath directory name) = t.follow left there [.entry name] := by
  have hsteps : ∃ left, ∀ later ≠ [],
      t.follow linkLimit (t.home.start directory) (wayOf directory ++ later) =
        t.follow left there later := by
    have hfollow := (find_eq_follow hdirectory).symm.trans hdirectory
    rcases pathSteps_eq directory with hway | hway <;> rw [hway] at hfollow
    · obtain ⟨left, hleft⟩ := follow_append hfollow
      exact ⟨left, fun later _ => hleft later⟩
    · obtain ⟨left, hleft⟩ := follow_append hfollow
      refine ⟨left, fun later hlater => ?_⟩
      rw [← hleft later, List.append_assoc, List.singleton_append, follow_append_stay _ _ hlater]
  obtain ⟨left, hleft⟩ := hsteps
  refine ⟨left, ?_⟩
  rw [find_eq_follow hplace, start_joinPath _ _ (ne_empty_of_find_ok hdirectory),
    pathSteps_joinPath, hleft _ (List.cons_ne_nil _ _)]

theorem readDirectory_eq_ok {path : String} {entries : Listing} :
    t.readDirectory path = .ok entries ↔
      ∃ here, t.find path = .ok (.directory here) ∧ t.listing here = entries := by
  rw [readDirectory]
  split <;> simp_all

theorem nodup_of_readDirectory {path : String} {entries : Listing}
    (h : t.readDirectory path = .ok entries) : (entries.map Prod.fst).Nodup := by
  obtain ⟨here, -, rfl⟩ := readDirectory_eq_ok.mp h
  exact t.nodup_listing here

/-- A directory in a listing lists under its path what it holds in the listing. -/
theorem readDirectory_joinPath {directory : String} {name : EntryName}
    {entries inner listed : Listing} (hdirectory : t.readDirectory directory = .ok entries)
    (hentry : (name, .directory inner) ∈ entries)
    (hlisted : t.readDirectory (joinPath directory name) = .ok listed) : listed = inner := by
  obtain ⟨there, hthere, rfl⟩ := readDirectory_eq_ok.mp hdirectory
  obtain ⟨here, hhere, rfl⟩ := readDirectory_eq_ok.mp hlisted
  have hlookup := (Listing.lookup_eq_some_iff (t.nodup_listing there)).mpr hentry
  obtain ⟨left, hleft⟩ := find_joinPath hthere hhere
  rw [hhere, follow_entry, hlookup] at hleft
  simp only [follow_nil] at hleft
  split_ifs at hleft
  cases hleft
  exact listing_child hlookup

end FileTree

end UiCatalog
