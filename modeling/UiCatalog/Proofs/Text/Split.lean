import UiCatalog.Text.Split
/-!
# Parts between separators

The parts of a text are the only ones that hold no separator and that give the text when they are
joined with separators.
-/

namespace UiCatalog.Text

/-- Whether parts are what stands between the separators of a text. -/
structure IsSplit (separator : Char) (cs : List Char) (parts : List (List Char)) : Prop where
  joined : [separator].intercalate parts = cs
  nonempty : parts ≠ []
  unbroken : ∀ part ∈ parts, separator ∉ part

variable {separator : Char}

private theorem splitAt_eq_splitOn (separator : Char) (cs : List Char) :
    splitAt separator cs = cs.splitOn separator := by
  induction cs with
  | nil => rfl
  | cons c cs ih =>
    rw [List.splitOn_eq_splitOnP] at ih ⊢
    rw [splitAt, ih, List.splitOnP_cons_eq_if_modifyHead]
    obtain ⟨part, parts, hparts⟩ :=
      List.exists_cons_of_ne_nil (List.splitOnP_ne_nil (· == separator) cs)
    rw [hparts]
    cases c == separator <;> rfl

theorem splitAt_ne_nil (separator : Char) (cs : List Char) : splitAt separator cs ≠ [] := by
  rw [splitAt_eq_splitOn]
  exact List.splitOnP_ne_nil _ _

private theorem separator_notMem_splitAt {cs : List Char} :
    ∀ part ∈ splitAt separator cs, separator ∉ part := by
  induction cs with
  | nil => simp [splitAt]
  | cons c cs ih =>
    rw [splitAt]
    split
    · exact List.forall_mem_cons.mpr ⟨List.not_mem_nil, ih⟩
    · rename_i hparts
      exact absurd hparts (splitAt_ne_nil separator cs)
    · rename_i part parts hc hparts
      rw [hparts, List.forall_mem_cons] at ih
      refine List.forall_mem_cons.mpr ⟨?_, ih.2⟩
      exact List.not_mem_cons_of_ne_of_not_mem (Ne.symm (ne_of_beq_false hc)) ih.1

theorem forall_mem_splitAt {p : Char → Prop} {cs : List Char} :
    (∀ part ∈ splitAt separator cs, ∀ c ∈ part, p c) ↔ ∀ c ∈ cs, p c ∨ c = separator := by
  induction cs with
  | nil => simp [splitAt]
  | cons c cs ih =>
    rw [List.forall_mem_cons, ← ih, splitAt]
    split
    · rename_i hc
      simp [eq_of_beq hc]
    · rename_i hparts
      exact absurd hparts (splitAt_ne_nil separator cs)
    · rename_i part parts hc hparts
      have hne : c ≠ separator := ne_of_beq_false hc
      simp [hparts, hne, and_assoc]

theorem isSplit_iff {cs : List Char} {parts : List (List Char)} :
    IsSplit separator cs parts ↔ splitAt separator cs = parts := by
  constructor
  · intro h
    rw [splitAt_eq_splitOn, ← h.joined, List.splitOn_intercalate separator h.unbroken h.nonempty]
  · rintro rfl
    refine ⟨?_, splitAt_ne_nil separator cs, separator_notMem_splitAt⟩
    rw [splitAt_eq_splitOn, List.intercalate_splitOn]

theorem splitAt_append_cons (separator : Char) (cs cs' : List Char) :
    splitAt separator (cs ++ separator :: cs') =
      splitAt separator cs ++ splitAt separator cs' := by
  simp only [splitAt_eq_splitOn, List.splitOn_eq_splitOnP]
  exact List.splitOnP_append_cons cs cs' (beq_self_eq_true separator)

theorem splitAt_of_notMem {cs : List Char} (h : separator ∉ cs) : splitAt separator cs = [cs] := by
  rw [splitAt_eq_splitOn, List.splitOn_eq_singleton h]

end UiCatalog.Text
