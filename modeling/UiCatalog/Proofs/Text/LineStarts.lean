import Mathlib.Data.String.Basic
import UiCatalog.Text.LineStarts
/-!
# Positions in a text of two parts

Where a line feed joins two texts, positions in the first part are what they were, and positions in
the second part are as many lines further down as there are lines before it.
-/

namespace UiCatalog

section

variable {α : Type} {p : α → Bool} {d : α}

theorem takeWhile_append_cons (hd : p d = false) (cs ds : List α) :
    (cs ++ d :: ds).takeWhile p = cs.takeWhile p := by
  induction cs with
  | nil => simp [hd]
  | cons c cs ih =>
    rw [List.cons_append, List.takeWhile_cons, List.takeWhile_cons, ih]

theorem dropWhile_append_cons (hd : p d = false) (cs ds : List α) :
    (cs ++ d :: ds).dropWhile p = cs.dropWhile p ++ d :: ds := by
  induction cs with
  | nil => simp [hd]
  | cons c cs ih =>
    rw [List.cons_append, List.dropWhile_cons, List.dropWhile_cons, ih]
    split <;> rfl

theorem getLastD_append_cons (a b : α) (as bs : List α) :
    (as ++ b :: bs).getLastD a = bs.getLastD b := by
  induction as generalizing a with
  | nil => rw [List.nil_append, List.getLastD_cons]
  | cons c as ih => rw [List.cons_append, List.getLastD_cons, ih]

end

open String (utf8Len)

theorem utf8Len_toList (s : String) : utf8Len s.toList = s.utf8ByteSize := by
  rw [← String.utf8ByteSize_ofList, String.ofList_toList]

theorem toList_append_lineFeed (a b : String) :
    (a ++ "\n" ++ b).toList = a.toList ++ '\n' :: b.toList := by
  simp

def Position.down (n : Nat) (p : Position) : Position :=
  { p with line := p.line + n }

def Span.down (n : Nat) (s : Span) : Span :=
  ⟨s.start.down n, s.stop.down n⟩

namespace LineStarts

/-- A line starts behind the first character if that is a line feed, others behind that. -/
theorem after_cons (offset : Nat) (c : Char) (cs : List Char) :
    after offset (c :: cs) =
      (if c = '\n' then [offset + c.utf8Size] else []) ++ after (offset + c.utf8Size) cs := by
  rw [after]
  by_cases hc : c = '\n'
  · have hsize : c.utf8Size = 1 := by
      rw [hc]
      rfl
    rw [if_pos hc, if_pos hc, hsize]
    rfl
  · rw [if_neg hc, if_neg hc]
    rfl

private theorem after_append (offset : Nat) (cs ds : List Char) :
    after offset (cs ++ ds) = after offset cs ++ after (offset + utf8Len cs) ds := by
  induction cs generalizing offset with
  | nil => simp [after]
  | cons c cs ih =>
    have hoffset : offset + utf8Len (c :: cs) = offset + c.utf8Size + utf8Len cs := by
      rw [String.utf8Len_cons]
      omega
    rw [List.cons_append, after_cons, after_cons, ih, List.append_assoc, hoffset]

private theorem after_move (offset n : Nat) (cs : List Char) :
    after (offset + n) cs = (after offset cs).map (· + n) := by
  induction cs generalizing offset with
  | nil => rfl
  | cons c cs ih =>
    rw [after_cons, after_cons, List.map_append, apply_ite (List.map (· + n)), ← ih,
      Nat.add_right_comm offset n]
    rfl

private theorem le_of_mem_after {offset x : Nat} {cs : List Char} (hx : x ∈ after offset cs) :
    x ≤ offset + utf8Len cs := by
  induction cs generalizing offset with
  | nil => simp [after] at hx
  | cons c cs ih =>
    rw [String.utf8Len_cons]
    rw [after_cons, List.mem_append] at hx
    rcases hx with hfirst | hlater
    · have heq : x = offset + c.utf8Size := by
        split at hfirst
        · exact List.mem_singleton.mp hfirst
        · simp at hfirst
      omega
    · have hle := ih hlater
      omega

private theorem length_after (offset : Nat) (cs : List Char) :
    (after offset cs).length = cs.count '\n' := by
  induction cs generalizing offset with
  | nil => rfl
  | cons c cs ih =>
    rw [after_cons, List.length_append, apply_ite List.length, ih, List.count_cons, Nat.add_comm]
    simp only [beq_iff_eq]
    rfl

variable (a b : String)

private theorem later_append_lineFeed :
    (ofText (a ++ "\n" ++ b)).later = (ofText a).later ++
      (a.utf8ByteSize + 1) :: (ofText b).later.map (· + (a.utf8ByteSize + 1)) := by
  have hsecond := after_move 0 (a.utf8ByteSize + 1) b.toList
  rw [Nat.zero_add] at hsecond
  rw [ofText, toList_append_lineFeed, after_append, after, if_pos rfl, utf8Len_toList,
    Nat.zero_add, hsecond]
  rfl

theorem position_append_left {offset : Nat} (h : offset ≤ a.utf8ByteSize) :
    (ofText (a ++ "\n" ++ b)).position offset = (ofText a).position offset := by
  have hbegun := takeWhile_append_cons (p := (· ≤ offset)) (d := a.utf8ByteSize + 1)
    (by simpa using Nat.lt_succ_of_le h) (ofText a).later
    ((ofText b).later.map (· + (a.utf8ByteSize + 1)))
  rw [position, position, later_append_lineFeed, hbegun]

theorem position_append_right (offset : Nat) :
    (ofText (a ++ "\n" ++ b)).position (offset + (a.utf8ByteSize + 1)) =
      ((ofText b).position offset).down (a.toList.count '\n' + 1) := by
  generalize hm : a.utf8ByteSize + 1 = m
  have hfirst : ∀ x ∈ (ofText a).later, decide (x ≤ offset + m) = true := by
    intro x hx
    have hle := le_of_mem_after hx
    rw [Nat.zero_add, utf8Len_toList] at hle
    exact decide_eq_true (by omega)
  have hsecond : (fun x => decide (x ≤ offset + m)) ∘ (· + m) = (fun x => decide (x ≤ offset)) := by
    funext x
    simp
  have hbegun : ((ofText a).later ++ m :: (ofText b).later.map (· + m)).takeWhile
      (· ≤ offset + m) =
        (ofText a).later ++ m :: ((ofText b).later.takeWhile (· ≤ offset)).map (· + m) := by
    rw [List.takeWhile_append_of_pos hfirst, List.takeWhile_cons,
      if_pos (decide_eq_true (Nat.le_add_left m offset)), List.takeWhile_map, hsecond]
  have hlines : (ofText a).later.length = a.toList.count '\n' := length_after 0 a.toList
  have hlast (ys : List Nat) : (ys.map (· + m)).getLastD m = ys.getLastD 0 + m := by
    rw [List.getLastD_eq_getLast?, List.getLastD_eq_getLast?, List.getLast?_map]
    cases ys.getLast? with
    | none => exact (Nat.zero_add m).symm
    | some y => rfl
  rw [position, position, later_append_lineFeed, hm, hbegun, getLastD_append_cons, hlast]
  simp only [Position.down, Position.mk.injEq, List.length_append, List.length_cons,
    List.length_map, hlines]
  omega

end LineStarts

end UiCatalog
