import Mathlib.Data.List.Chain
import Mathlib.Data.List.Rotate
import Mathlib.Logic.Relation
/-!
# Cycles of a relation

A cycle is listed from one of its members on, each member once. In a relation that has at most one
step from everywhere, two cycles with a common member are rotations of each other, and at most one
cycle can be reached from anywhere.
-/

namespace UiCatalog

open Relation

/-- The members of a cycle of `R` in the order of its steps, each once. -/
structure IsCycle {α : Type} (R : α → α → Prop) (c : List α) : Prop where
  ne_nil : c ≠ []
  nodup : c.Nodup
  steps : (c ++ c.head?.toList).IsChain R

theorem reflTransGen_last {α : Type} {R : α → α → Prop} {l : List α} {a m : α}
    (hl : (l ++ [m]).IsChain R) (ha : a ∈ l ++ [m]) : ReflTransGen R a m := by
  induction l generalizing a with
  | nil =>
    obtain rfl : a = m := by simpa using ha
    exact ReflTransGen.refl
  | cons b l ih =>
    have htail : (l ++ [m]).IsChain R := hl.tail
    rcases List.mem_cons.mp ha with rfl | ha
    · cases l with
      | nil => exact ReflTransGen.single (by simpa using hl)
      | cons c l =>
        have hstep : R a c := by
          rw [List.cons_append, List.cons_append, List.isChain_cons_cons] at hl
          exact hl.1
        exact ReflTransGen.head hstep (ih htail (by simp))
    · exact ih htail ha

theorem isChain_rotate {α : Type} {R : α → α → Prop} {a : α} {l l' : List α}
    (h : (l ++ a :: l' ++ (l ++ a :: l').head?.toList).IsChain R) :
    (a :: (l' ++ l) ++ [a]).IsChain R := by
  cases l with
  | nil => simpa using h
  | cons b l =>
    have hsteps : (b :: l ++ a :: (l' ++ [b])).IsChain R := by simpa [List.append_assoc] using h
    suffices (a :: l' ++ b :: (l ++ [a])).IsChain R by simpa [List.append_assoc] using this
    rw [List.isChain_split] at hsteps ⊢
    exact ⟨hsteps.2, hsteps.1⟩

private theorem transGen_self_of_reaches {α : Type} {R : α → α → Prop} (hR : Relator.RightUnique R)
    {a b : α} (ha : TransGen R a a) (hb : ReflTransGen R a b) : TransGen R b b := by
  induction hb with
  | refl => exact ha
  | tail _ hstep ih =>
    obtain ⟨c, hc, hback⟩ := TransGen.head'_iff.mp ih
    obtain rfl := hR hc hstep
    exact TransGen.tail' hback hc

/-- From where a round trip can be reached there is always a step. -/
theorem exists_step {α : Type} {R : α → α → Prop} (hR : Relator.RightUnique R) {a b m : α}
    (hm : TransGen R m m) (ha : ReflTransGen R a m) (hb : ReflTransGen R a b) : ∃ c, R b c := by
  rcases ReflTransGen.total_of_right_unique hR ha hb with hr | hr
  · obtain ⟨c, hc, _⟩ := TransGen.head'_iff.mp (transGen_self_of_reaches hR hm hr)
    exact ⟨c, hc⟩
  · obtain ⟨c, hc, _⟩ := TransGen.head'_iff.mp (TransGen.trans_right hr hm)
    exact ⟨c, hc⟩

namespace IsCycle

variable {α : Type} {R : α → α → Prop}

theorem cons_iff (a : α) (l : List α) :
    IsCycle R (a :: l) ↔ (a :: l).Nodup ∧ (a :: l ++ [a]).IsChain R :=
  ⟨fun h => ⟨h.nodup, h.steps⟩, fun h => ⟨List.cons_ne_nil a l, h.1, h.2⟩⟩

theorem rotate {l l' : List α} (h : IsCycle R (l ++ l')) : IsCycle R (l' ++ l) := by
  cases l' with
  | nil => simpa using h
  | cons a l' =>
    exact ⟨by simp, List.nodup_append_comm.mp h.nodup, isChain_rotate h.steps⟩

private theorem exists_rotation {c : List α} {m : α} (h : IsCycle R c) (hm : m ∈ c) :
    ∃ l, IsCycle R (m :: l) ∧ (m :: l) ~r c := by
  obtain ⟨l, l', rfl⟩ := List.append_of_mem hm
  exact ⟨l' ++ l, by simpa using h.rotate, by simpa using List.isRotated_append (l := m :: l')⟩

private theorem reaches {c : List α} {a b : α} (h : IsCycle R c) (ha : a ∈ c) (hb : b ∈ c) :
    ReflTransGen R a b := by
  obtain ⟨l, hl, hrot⟩ := h.exists_rotation hb
  refine reflTransGen_last (l := b :: l) hl.steps ?_
  exact List.mem_append_left _ (hrot.mem_iff.mpr ha)

theorem transGen {c : List α} {a : α} (h : IsCycle R c) (ha : a ∈ c) : TransGen R a a := by
  obtain ⟨l, hl, hrot⟩ := h.exists_rotation ha
  cases l with
  | nil => exact TransGen.single (by simpa using hl.steps)
  | cons b l =>
    have hstep : R a b := by simpa using hl.steps.rel_head?
    have hb : b ∈ c := hrot.mem_iff.mp (by simp)
    exact TransGen.head' hstep (h.reaches hb ha)

section RightUnique

private theorem isPrefix_total (hR : Relator.RightUnique R) {a : α} {l l' : List α}
    (h : (a :: l).IsChain R) (h' : (a :: l').IsChain R) : l <+: l' ∨ l' <+: l := by
  induction l generalizing a l' with
  | nil => exact Or.inl List.nil_prefix
  | cons b l ih =>
    cases l' with
    | nil => exact Or.inr List.nil_prefix
    | cons b' l' =>
      rw [List.isChain_cons_cons] at h h'
      obtain rfl : b = b' := hR h.1 h'.1
      rcases ih h.2 h'.2 with hp | hp
      · exact Or.inl ((List.cons_prefix_cons).mpr ⟨rfl, hp⟩)
      · exact Or.inr ((List.cons_prefix_cons).mpr ⟨rfl, hp⟩)

private theorem eq_of_isPrefix {a : α} {l l' : List α} (h' : (a :: l').Nodup)
    (hp : l ++ [a] <+: l' ++ [a]) : l = l' := by
  rcases List.prefix_concat_iff.mp hp with heq | hp
  · exact List.append_cancel_right heq
  · have : a ∈ l' := hp.subset (by simp)
    exact absurd this (List.nodup_cons.mp h').1

variable (hR : Relator.RightUnique R) {c c' : List α} {a b m m' : α}

include hR

theorem eq_of_head {l l' : List α} (h : IsCycle R (a :: l)) (h' : IsCycle R (a :: l')) :
    l = l' := by
  rcases isPrefix_total hR h.steps h'.steps with hp | hp
  · exact eq_of_isPrefix h'.nodup hp
  · exact (eq_of_isPrefix h.nodup hp).symm

private theorem isRotated (h : IsCycle R c) (h' : IsCycle R c') (hm : m ∈ c) (hm' : m ∈ c') :
    c ~r c' := by
  obtain ⟨l, hl, hrot⟩ := h.exists_rotation hm
  obtain ⟨l', hl', hrot'⟩ := h'.exists_rotation hm'
  obtain rfl : l = l' := eq_of_head hR hl hl'
  exact hrot.symm.trans hrot'

private theorem mem_of_step (h : IsCycle R c) (ha : a ∈ c) (hb : R a b) : b ∈ c := by
  obtain ⟨l, hl, hrot⟩ := h.exists_rotation ha
  cases l with
  | nil =>
    have hstep : R a a := by simpa using hl.steps
    exact hR hstep hb ▸ ha
  | cons b' l =>
    have hstep : R a b' := by simpa using hl.steps.rel_head?
    obtain rfl : b' = b := hR hstep hb
    exact hrot.mem_iff.mp (by simp)

private theorem mem_of_reaches (h : IsCycle R c) (ha : a ∈ c) (hb : ReflTransGen R a b) :
    b ∈ c := by
  induction hb with
  | refl => exact ha
  | tail _ hstep ih => exact mem_of_step hR h ih hstep

/-- Of two cycles that are reached from one place, each is a rotation of the other. -/
theorem isRotated_of_reaches (h : IsCycle R c) (h' : IsCycle R c') (hm : m ∈ c) (hm' : m' ∈ c')
    (ha : ReflTransGen R a m) (ha' : ReflTransGen R a m') : c ~r c' := by
  rcases ReflTransGen.total_of_right_unique hR ha ha' with hr | hr
  · exact isRotated hR h h' (mem_of_reaches hR h hm hr) hm'
  · exact isRotated hR h h' hm (mem_of_reaches hR h' hm' hr)

end RightUnique

end IsCycle

end UiCatalog
