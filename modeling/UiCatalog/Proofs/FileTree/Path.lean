import UiCatalog.FileTree.Collect
import UiCatalog.Proofs.Text.Split
/-!
# Paths of entries

The path of an entry continues the path of its directory by one step, which is the name of the
entry. Whether an extension is accepted can be read off the end of the path.
-/

namespace UiCatalog

private theorem Step.ofPart?_entry (name : EntryName) :
    Step.ofPart? name.text = some (.entry name) :=
  dif_pos name.valid

private theorem Step.ofPart?_empty : Step.ofPart? "" = none := by
  decide

namespace FileTree

private theorem endsWith_slash_iff (path : String) :
    path.endsWith "/" = true ↔ ∃ front : List Char, path.toList = front ++ ['/'] := by
  have hiff : path.endsWith "/" = true ↔ ['/'] <:+ path.toList := by
    simpa using @String.Slice.endsWith_string_iff "/" path.toSlice
  rw [hiff]
  exact ⟨fun ⟨front, h⟩ => ⟨front, h.symm⟩, fun ⟨front, h⟩ => ⟨front, h.symm⟩⟩

/-- The name of an entry stands after a slash that ends the path of its directory, or after one more
slash. -/
private theorem toList_joinPath (directory : String) (name : EntryName) :
    ∃ front, (joinPath directory name).toList = front ++ '/' :: name.text.toList ∧
      (directory.toList = front ∨ directory.toList = front ++ ['/']) := by
  rw [joinPath]
  split
  · rename_i hslash
    obtain ⟨front, hfront⟩ := (endsWith_slash_iff directory).mp hslash
    exact ⟨front, by simp [hfront], .inr hfront⟩
  · exact ⟨directory.toList, by simp, .inl rfl⟩

private theorem pathParts_slash {path : String} {front back : List Char}
    (hpath : path.toList = front ++ '/' :: back) (hback : '/' ∉ back) :
    pathParts path = (Text.splitAt '/' front).map String.ofList ++ [String.ofList back] := by
  rw [pathParts, hpath, Text.splitAt_append_cons, Text.splitAt_of_notMem hback, List.map_append,
    List.map_singleton]

private theorem pathParts_joinPath (directory : String) (name : EntryName) :
    ∃ parts, pathParts (joinPath directory name) = parts ++ [name.text] ∧
      (pathParts directory = parts ∨ pathParts directory = parts ++ [""]) := by
  obtain ⟨front, hjoin, hdirectory⟩ := toList_joinPath directory name
  refine ⟨(Text.splitAt '/' front).map String.ofList, ?_, ?_⟩
  · rw [pathParts_slash hjoin name.valid.unbroken, String.ofList_toList]
  · rcases hdirectory with h | h
    · exact .inl (by rw [pathParts, h])
    · exact .inr (pathParts_slash h List.not_mem_nil)

def wayOf (path : String) : List Step :=
  (pathParts path).filterMap Step.ofPart?

theorem pathSteps_eq (path : String) : pathSteps path = wayOf path ∨
    pathSteps path = wayOf path ++ [.stay] := by
  rw [pathSteps, wayOf]
  split
  · exact .inr rfl
  · exact .inl (List.append_nil _)

theorem pathSteps_joinPath (directory : String) (name : EntryName) :
    pathSteps (joinPath directory name) = wayOf directory ++ [.entry name] := by
  obtain ⟨parts, hjoin, hdirectory⟩ := pathParts_joinPath directory name
  have hway : wayOf directory = parts.filterMap Step.ofPart? := by
    rcases hdirectory with h | h <;> simp [wayOf, h, Step.ofPart?_empty]
  rw [hway, pathSteps, hjoin]
  simp [Step.ofPart?_entry, name.valid.nonempty]

theorem pathNames_joinPath (directory : String) (name : EntryName) :
    pathNames (joinPath directory name) = pathNames directory ++ [name.text] := by
  obtain ⟨parts, hjoin, hdirectory⟩ := pathParts_joinPath directory name
  have hnames : pathNames directory = parts.filter fun part => part ≠ "" ∧ part ≠ "." := by
    rcases hdirectory with h | h <;> simp [pathNames, h]
  rw [hnames, pathNames, hjoin]
  simp [name.valid.nonempty, name.valid.notDot]

theorem start_joinPath (here : Location) {directory : String} (name : EntryName)
    (hdirectory : directory ≠ "") :
    here.start (joinPath directory name) = here.start directory := by
  obtain ⟨c, cs, hcs⟩ := List.exists_cons_of_ne_nil
    (fun h => hdirectory (String.toList_eq_nil_iff.mp h))
  have hstart : (joinPath directory name).startsWith "/" = directory.startsWith "/" := by
    rw [Bool.eq_iff_iff, String.startsWith_string_iff, String.startsWith_string_iff]
    have hjoin : ∃ back, (joinPath directory name).toList = c :: back := by
      rw [joinPath]
      split <;> simp [hcs]
    obtain ⟨back, hback⟩ := hjoin
    simp [hback, hcs]
  rw [Location.start, Location.start, hstart]

/-! ## Extensions -/

/-- Whether a path ends in a file name with an accepted extension: there is a stem in front of the
last dot, and what follows the dot is an accepted extension but for the case of ASCII letters. -/
def EndsAccepted (o : Options) (path : String) : Prop :=
  ∃ front stem extension, path = front ++ "/" ++ stem ++ "." ++ extension ∧
    '/' ∉ stem.toList ∧ '/' ∉ extension.toList ∧ stem ≠ "" ∧ '.' ∉ extension.toList ∧
    ∃ accepted ∈ o.extensions,
      accepted.toList.map Char.toLower = extension.toList.map Char.toLower

private theorem nameExtension?_of_notMem {name : String} (hdot : '.' ∉ name.toList) :
    nameExtension? name = none := by
  rw [nameExtension?, Text.splitAt_of_notMem hdot]
  rfl

private theorem nameExtension?_dot (stem : String) {extension : String}
    (hdot : '.' ∉ extension.toList) :
    nameExtension? (stem ++ "." ++ extension) = if stem = "" then none else some extension := by
  have hparts : Text.splitAt '.' (stem ++ "." ++ extension).toList =
      Text.splitAt '.' stem.toList ++ [extension.toList] := by
    rw [← Text.splitAt_of_notMem hdot, ← Text.splitAt_append_cons]
    simp
  rw [nameExtension?, hparts, List.reverse_append, List.reverse_singleton, List.singleton_append]
  split
  · rename_i h
    simp at h
  · rename_i h
    exact absurd (List.reverse_eq_nil_iff.mp (List.cons.inj h).2) (Text.splitAt_ne_nil _ _)
  · rename_i h
    have hstem : Text.splitAt '.' stem.toList = [[]] := by
      simpa using congrArg List.reverse (List.cons.inj h).2
    rw [if_pos (String.toList_eq_nil_iff.mp (Text.isSplit_iff.mpr hstem).joined.symm)]
  · rename_i hhidden h
    obtain ⟨rfl, rfl⟩ := List.cons.inj h
    have hstem : stem ≠ "" := by
      rintro rfl
      exact hhidden rfl
    rw [if_neg hstem, String.ofList_toList]

private theorem nameExtension?_eq_some_iff {name extension : String} :
    nameExtension? name = some extension ↔
      ∃ stem, name = stem ++ "." ++ extension ∧ stem ≠ "" ∧ '.' ∉ extension.toList := by
  constructor
  · intro h
    by_cases hdot : '.' ∈ name.toList
    · obtain ⟨back, front, hname, hback⟩ := List.eq_append_cons_of_mem (List.mem_reverse.mpr hdot)
      obtain ⟨stem, rfl⟩ : ∃ stem, front = (String.toList stem).reverse :=
        ⟨String.ofList front.reverse, by simp⟩
      obtain ⟨last, rfl⟩ : ∃ last, back = (String.toList last).reverse :=
        ⟨String.ofList back.reverse, by simp⟩
      have hlast : '.' ∉ last.toList := by simpa using hback
      have hjoin : name = stem ++ "." ++ last := by
        rw [← String.toList_inj]
        simpa using congrArg List.reverse hname
      rw [hjoin, nameExtension?_dot stem hlast] at h
      split at h
      · cases h
      · rename_i hstem
        cases h
        exact ⟨stem, hjoin, hstem, hlast⟩
    · rw [nameExtension?_of_notMem hdot] at h
      cases h
  · rintro ⟨stem, rfl, hstem, hdot⟩
    rw [nameExtension?_dot stem hdot, if_neg hstem]

private theorem acceptsExtension_iff (o : Options) (extension : String) :
    o.acceptsExtension extension = true ↔ ∃ accepted ∈ o.extensions,
      accepted.toList.map Char.toLower = extension.toList.map Char.toLower := by
  simp [Options.acceptsExtension]

theorem hasAcceptedExtension_joinPath (o : Options) (directory : String) (name : EntryName) :
    hasAcceptedExtension o (joinPath directory name) = true ↔
      EndsAccepted o (joinPath directory name) := by
  have hextension : extension? (joinPath directory name) = nameExtension? name.text := by
    rw [extension?, pathNames_joinPath, List.getLast?_concat]
    simp [name.valid.notDots]
  rw [hasAcceptedExtension, hextension, Option.any_eq_true]
  simp only [acceptsExtension_iff, nameExtension?_eq_some_iff]
  obtain ⟨back, hjoin, -⟩ := toList_joinPath directory name
  constructor
  · rintro ⟨extension, ⟨stem, hstem, hne, hdot⟩, haccepted⟩
    have hunbroken := name.valid.unbroken
    rw [hstem] at hunbroken
    simp only [String.toList_append, List.mem_append, not_or] at hunbroken
    refine ⟨String.ofList back, stem, extension, ?_, hunbroken.1.1, hunbroken.2, hne, hdot,
      haccepted⟩
    rw [← String.toList_inj, hjoin, hstem]
    simp
  · rintro ⟨front, stem, extension, hpath, hstem, hextension, hne, hdot, haccepted⟩
    have hname' : pathParts (joinPath directory name) =
        (Text.splitAt '/' front.toList).map String.ofList ++ [stem ++ "." ++ extension] := by
      have hslash : '/' ∉ (stem ++ "." ++ extension).toList := by simp [hstem, hextension]
      rw [← String.ofList_toList (s := stem ++ "." ++ extension)]
      refine pathParts_slash ?_ hslash
      simp [hpath]
    rw [pathParts_slash hjoin name.valid.unbroken, String.ofList_toList] at hname'
    have := (List.append_inj' hname' rfl).2
    exact ⟨extension, ⟨stem, List.singleton_inj.mp this, hne, hdot⟩, haccepted⟩

end FileTree

end UiCatalog
