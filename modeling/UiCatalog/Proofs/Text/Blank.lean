import Mathlib.Data.List.DropRight
import Mathlib.Data.List.TakeWhile
import Mathlib.Data.String.Basic
import UiCatalog.Text.Blank
/-!
# Blank texts

A text without the blanks at its ends is the only part of it that neither starts nor stops with a
blank and has only blanks around it.
-/

namespace UiCatalog.Text

private theorem dropWhile_isBlank_eq_nil_iff {cs : List Char} :
    cs.dropWhile isBlank = [] ↔ cs.all isBlank = true := by
  rw [List.dropWhile_eq_nil_iff, List.all_eq_true]

theorem isAllBlank_iff {s : String} : isAllBlank s = true ↔ trim s = "" := by
  have htrim : trim s = "" ↔ (s.toList.dropWhile isBlank).reverse.dropWhile isBlank = [] := by
    rw [trim, trimEnd, ← String.toList_inj]
    simp
  rw [htrim, dropWhile_isBlank_eq_nil_iff, List.all_reverse, isAllBlank]
  constructor
  · intro hall
    rw [dropWhile_isBlank_eq_nil_iff.mpr hall]
    rfl
  · intro hrest
    rw [← List.takeWhile_append_dropWhile (p := isBlank) (l := s.toList), List.all_append,
      hrest, Bool.and_true]
    exact List.all_takeWhile

/-- Whether a text is what is left of another one without the blanks at its ends. -/
structure IsTrimmed (s t : String) : Prop where
  around : ∃ front back, front.all isBlank ∧ back.all isBlank ∧
    s.toList = front ++ t.toList ++ back
  start : ∀ c ∈ t.toList.head?, isBlank c = false
  stop : ∀ c ∈ t.toList.getLast?, isBlank c = false

private theorem toList_trim (s : String) :
    (trim s).toList = (s.toList.dropWhile isBlank).rdropWhile isBlank := by
  rw [trim, String.toList_ofList]
  rfl

private theorem trim_isTrimmed (s : String) : IsTrimmed s (trim s) where
  around := by
    refine ⟨s.toList.takeWhile isBlank, (s.toList.dropWhile isBlank).rtakeWhile isBlank,
      List.all_takeWhile, List.all_eq_true.mpr fun c => List.mem_rtakeWhile_imp, ?_⟩
    rw [toList_trim, List.append_assoc, List.rdropWhile_append_rtakeWhile,
      List.takeWhile_append_dropWhile]
  start c hc := by
    rw [toList_trim] at hc
    obtain ⟨rest, hrest⟩ := List.rdropWhile_prefix isBlank (s.toList.dropWhile isBlank)
    have hhead := List.head?_dropWhile_not isBlank s.toList
    rwa [← hrest, List.head?_append, Option.mem_def.mp hc] at hhead
  stop c hc := by
    rw [toList_trim] at hc
    obtain ⟨hne, rfl⟩ := List.mem_getLast?_eq_getLast hc
    simpa using List.rdropWhile_last_not isBlank _ hne

private theorem IsTrimmed.eq_trim {s t : String} (h : IsTrimmed s t) : trim s = t := by
  obtain ⟨front, back, hfront, hback, hs⟩ := h.around
  have hstart : (t.toList ++ back).dropWhile isBlank =
      if t.toList = [] then [] else t.toList ++ back := by
    cases ht : t.toList with
    | nil => simpa using hback
    | cons c cs => simp [h.start c (by simp [ht])]
  have hstop : t.toList.rdropWhile isBlank = t.toList :=
    List.rdropWhile_eq_self_iff.mpr fun hne => by
      simp [h.stop _ (List.getLast_mem_getLast? hne)]
  apply String.toList_injective
  rw [toList_trim, hs, List.append_assoc,
    List.dropWhile_append_of_pos (List.all_eq_true.mp hfront), hstart]
  split
  · rename_i ht
    rw [ht]
    rfl
  · rw [List.rdropWhile, List.reverse_append, List.dropWhile_append_of_pos]
    · exact hstop
    · simpa using hback

theorem isTrimmed_iff {s t : String} : IsTrimmed s t ↔ trim s = t := by
  constructor
  · exact IsTrimmed.eq_trim
  · rintro rfl
    exact trim_isTrimmed s

end UiCatalog.Text
