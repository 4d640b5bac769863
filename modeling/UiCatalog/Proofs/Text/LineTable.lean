import UiCatalog.Proofs.Text.LineFeeds
/-!
# Line tables are exact

In ascending numbers, the search tells the place of a number or the place between a smaller and a
greater one. The first line starts at zero, so every offset has a line in the table, no difference
is below zero, and the position is the one that the line feeds before the offset tell.
-/

namespace UiCatalog

/-! ## Front parts of lists -/

private theorem takeWhile_eq_take {α : Type} {p : α → Bool} {xs : List α} {n : Nat}
    (hfront : ∀ x ∈ xs.take n, p x = true) (hnext : ∀ x, xs[n]? = some x → p x = false) :
    xs.takeWhile p = xs.take n := by
  have hrest : (xs.drop n).takeWhile p = [] := by
    cases hdrop : xs.drop n with
    | nil => rfl
    | cons x later =>
      have hx : xs[n]? = some x := by
        rw [← List.head?_drop, hdrop, List.head?_cons]
      rw [List.takeWhile_cons, hnext x hx]
      rfl
  calc xs.takeWhile p = (xs.take n ++ xs.drop n).takeWhile p := by rw [List.take_append_drop]
    _ = xs.take n := by rw [List.takeWhile_append_of_pos hfront, hrest, List.append_nil]

private theorem getLastD_take {α : Type} {a x : α} {xs : List α} {n : Nat}
    (h : (a :: xs)[n]? = some x) : (xs.take n).getLastD a = x := by
  induction n generalizing a xs with
  | zero => exact Option.some.inj h
  | succ n ih =>
    cases xs with
    | nil => cases h
    | cons b xs =>
      rw [List.take_succ_cons, List.getLastD_cons]
      exact ih h

namespace LineTable

/-! ## Searching -/

def IsAscending (xs : Array Nat) : Prop :=
  ∀ i j y z : Nat, i < j → xs[i]? = some y → xs[j]? = some z → y < z

/-- What a search in ascending numbers tells: where the number is, or where it could be inserted. -/
inductive Finds (xs : Array Nat) (x : Nat) : Except Nat Nat → Prop where
  | found {place : Nat} (here : xs[place]? = some x) : Finds xs x (.ok place)
  | between {place : Nat} (within : place ≤ xs.size)
      (below : ∀ i y, i < place → xs[i]? = some y → y < x)
      (above : ∀ i y, place ≤ i → xs[i]? = some y → x < y) : Finds xs x (.error place)

/-- Places among which the last number not above `x` is, if there is one. -/
structure Window (xs : Array Nat) (x base size : Nat) : Prop where
  nonempty : 0 < size
  within : base + size ≤ xs.size
  low : base = 0 ∨ ∃ y, xs[base]? = some y ∧ y ≤ x
  high : ∀ i y, base + size ≤ i → xs[i]? = some y → x < y

variable {xs : Array Nat} {x : Nat}

/-- Halving keeps to the places in question until one is left. -/
private theorem Window.narrow (hxs : IsAscending xs) {base size : Nat} (h : Window xs x base size)
    (hwithin : base + size ≤ xs.size) : Window xs x (narrow xs x base size hwithin) 1 := by
  fun_induction LineTable.narrow xs x base size hwithin with
  | case1 base size hwithin hmore hless ih =>
    have hmiddle : xs[base + size / 2]? = some xs[base + size / 2] :=
      Array.getElem?_eq_getElem (by omega)
    refine ih ⟨by omega, by omega, h.low, fun i y hi hy => ?_⟩
    rcases Nat.lt_or_eq_of_le (show base + size / 2 ≤ i by omega) with hlt | rfl
    · exact hless.trans (hxs _ _ _ _ hlt hmiddle hy)
    · exact Option.some.inj (hmiddle.symm.trans hy) ▸ hless
  | case2 base size hwithin hmore hless ih =>
    have hmiddle : xs[base + size / 2]? = some xs[base + size / 2] :=
      Array.getElem?_eq_getElem (by omega)
    refine ih ⟨by omega, by omega, .inr ⟨_, hmiddle, Nat.le_of_not_lt hless⟩, fun i y hi hy => ?_⟩
    exact h.high i y (by omega) hy
  | case3 base size hwithin hone =>
    have hsize : size = 1 := Nat.le_antisymm (Nat.le_of_not_lt hone) h.nonempty
    rwa [hsize] at h

private theorem Window.finds (hxs : IsAscending xs) {place : Nat} (h : Window xs x place 1) :
    Finds xs x (compareAt xs x place) := by
  obtain ⟨y, hplace⟩ : ∃ y, xs[place]? = some y := ⟨_, Array.getElem?_eq_getElem h.within⟩
  rw [compareAt, hplace]
  dsimp only
  rcases Nat.lt_trichotomy y x with hless | heq | hgreater
  · rw [if_neg hless.ne, if_pos hless]
    refine .between h.within (fun i z hi hz => ?_) h.high
    rcases Nat.lt_or_eq_of_le (Nat.le_of_lt_succ hi) with hlt | rfl
    · exact (hxs _ _ _ _ hlt hz hplace).trans hless
    · exact Option.some.inj (hplace.symm.trans hz) ▸ hless
  · rw [if_pos heq]
    exact .found (heq ▸ hplace)
  · rw [if_neg hgreater.ne', if_neg hgreater.not_gt]
    obtain rfl : place = 0 := by
      rcases h.low with hzero | ⟨z, hz, hle⟩
      · exact hzero
      · obtain rfl : y = z := Option.some.inj (hplace.symm.trans hz)
        exact absurd hgreater hle.not_gt
    refine .between (Nat.zero_le _) (fun i z hi _ => absurd hi (Nat.not_lt_zero i)) ?_
    intro i z _ hz
    rcases Nat.eq_zero_or_pos i with rfl | hpos
    · exact Option.some.inj (hplace.symm.trans hz) ▸ hgreater
    · exact h.high i z hpos hz

private theorem search_finds (hxs : IsAscending xs) (x : Nat) : Finds xs x (search xs x) := by
  have hnone {i : Nat} (hi : xs.size ≤ i) : xs[i]? = none := Array.getElem?_eq_none hi
  rcases Nat.eq_zero_or_pos xs.size with hempty | hpos
  · have hplace : narrow xs x 0 xs.size (Nat.le_of_eq (Nat.zero_add _)) = 0 := by
      rw [narrow, dif_neg (by omega)]
    rw [search, hplace, compareAt, hnone (Nat.le_of_eq hempty)]
    refine .between (Nat.zero_le _) (fun i y hi _ => absurd hi (Nat.not_lt_zero i)) ?_
    intro i y _ hy
    rw [hnone (by omega)] at hy
    cases hy
  · have hwindow : Window xs x 0 xs.size :=
      ⟨hpos, Nat.le_of_eq (Nat.zero_add _), .inl rfl, fun i y hi hy => by
        rw [hnone (by omega)] at hy
        cases hy⟩
    exact (hwindow.narrow hxs _).finds hxs

/-! ## The table of a text -/

variable {limit : Nat}

private theorem extend?_eq_some {offset : Nat} {bytes : List UInt8}
    (h : offset + bytes.length < limit) (t : LineTable) :
    extend? limit t offset bytes = some ⟨t.starts ++ (Text.behindFeeds offset bytes).toArray⟩ := by
  induction bytes generalizing offset t with
  | nil => simp [extend?, Text.behindFeeds]
  | cons b bytes ih =>
    rw [List.length_cons] at h
    have hlater (t : LineTable) := ih (show offset + 1 + bytes.length < limit by omega) t
    rw [extend?, Text.behindFeeds, List.findIdxs_cons]
    by_cases hb : b = Text.lineFeed
    · have hbeq : (b == Text.lineFeed) = true := beq_iff_eq.mpr hb
      have hsum : sum? limit (offset % limit) 1 = some (offset + 1) := by
        rw [Nat.mod_eq_of_lt (by omega), sum?, if_pos (by omega)]
      rw [if_pos hb, if_pos hbeq, hsum, Option.bind_some, hlater]
      simp [Text.behindFeeds]
    · have hbeq : (b == Text.lineFeed) ≠ true := fun heq => hb (beq_iff_eq.mp heq)
      rw [if_neg hb, if_neg hbeq, hlater, Text.behindFeeds]

variable {t : LineTable} {text : String}

def Holds (t : LineTable) (lines : LineStarts) : Prop :=
  t.starts.toList = 0 :: lines.later

private theorem exists_ofText? (h : text.utf8ByteSize < limit) :
    ∃ t, ofText? limit text = some t ∧ t.Holds (.ofText text) := by
  have hbytes : 0 + (Text.bytes text).length < limit := by
    rw [Nat.zero_add]
    exact h
  refine ⟨_, extend?_eq_some hbytes ⟨#[0]⟩, ?_⟩
  rw [Holds, LineStarts.later_ofText]
  simp

private theorem Holds.isAscending (h : t.Holds (.ofText text)) : IsAscending t.starts := by
  have hsorted : t.starts.toList.Pairwise (· < ·) := by
    rw [h, LineStarts.later_ofText, List.pairwise_cons]
    refine ⟨fun x hx => ?_, List.pairwise_findIdxs⟩
    exact Nat.zero_lt_of_lt (List.ge_of_mem_findIdxs x hx)
  intro i j y z hlt hy hz
  rw [← Array.getElem?_toList] at hy hz
  obtain ⟨hi, rfl⟩ := List.getElem?_eq_some_iff.mp hy
  obtain ⟨hj, rfl⟩ := List.getElem?_eq_some_iff.mp hz
  exact List.pairwise_iff_getElem.mp hsorted i j hi hj hlt

private theorem exists_line? (hxs : IsAscending t.starts) (hzero : t.starts[0]? = some 0)
    (offset : Nat) :
    ∃ line start, t.line? offset = some line ∧ t.starts[line]? = some start ∧
      start ≤ offset ∧ ∀ i y, line < i → t.starts[i]? = some y → offset < y := by
  have hfinds := search_finds hxs offset
  rw [line?]
  generalize search t.starts offset = answer at hfinds ⊢
  cases hfinds with
  | @found place here =>
    exact ⟨place, offset, rfl, here, Nat.le_refl offset, fun i y hi hy => hxs _ _ _ _ hi here hy⟩
  | @between place within below above =>
    cases place with
    | zero => exact absurd (above 0 0 (Nat.le_refl 0) hzero) (Nat.not_lt_zero offset)
    | succ line =>
      obtain ⟨start, hstart⟩ : ∃ start, t.starts[line]? = some start :=
        ⟨_, Array.getElem?_eq_getElem within⟩
      have hbelow := below line start (Nat.lt_succ_self line) hstart
      exact ⟨line, start, rfl, hstart, hbelow.le, fun i y hi hy => above i y hi hy⟩

private theorem Holds.takeWhile_later (h : t.Holds (.ofText text)) {offset line start : Nat}
    (hstart : t.starts[line]? = some start) (hle : start ≤ offset)
    (habove : ∀ i y, line < i → t.starts[i]? = some y → offset < y) :
    (LineStarts.ofText text).later.takeWhile (· ≤ offset) =
      (LineStarts.ofText text).later.take line := by
  have hlater (i : Nat) : (LineStarts.ofText text).later[i]? = t.starts[i + 1]? := by
    rw [← Array.getElem?_toList, h, List.getElem?_cons_succ]
  refine takeWhile_eq_take (fun x hx => ?_) fun x hx => ?_
  · obtain ⟨i, hi⟩ := List.getElem?_of_mem hx
    obtain ⟨hline, hnext⟩ : i < line ∧ t.starts[i + 1]? = some x := by
      simpa [List.getElem?_take, hlater] using hi
    apply decide_eq_true
    rcases Nat.lt_or_eq_of_le (Nat.succ_le_of_lt hline) with hlt | rfl
    · exact (h.isAscending _ _ _ _ hlt hnext hstart).le.trans hle
    · exact Option.some.inj (hstart.symm.trans hnext) ▸ hle
  · have hless := habove (line + 1) x (Nat.lt_succ_self line) ((hlater line).symm.trans hx)
    exact decide_eq_false hless.not_ge

/-- Neither the search nor the difference fails, and the position is the one that the line feeds
before the offset tell. -/
private theorem Holds.position? (h : t.Holds (.ofText text)) (offset : Nat) :
    t.position? offset = some ((LineStarts.ofText text).position offset) := by
  have hget (i : Nat) : t.starts[i]? = (0 :: (LineStarts.ofText text).later)[i]? := by
    rw [← Array.getElem?_toList, h]
  obtain ⟨line, start, hline, hstart, hle, habove⟩ := exists_line? h.isAscending (hget 0) offset
  have hlast := (hget line).symm.trans hstart
  have hlength : line ≤ (LineStarts.ofText text).later.length := by
    obtain ⟨hlt, -⟩ := List.getElem?_eq_some_iff.mp hlast
    exact Nat.le_of_lt_succ hlt
  have hcolumn : difference? offset start = some (offset - start) := if_pos hle
  rw [LineStarts.position, h.takeWhile_later hstart hle habove, getLastD_take hlast,
    List.length_take_of_le hlength]
  simp only [LineTable.position?, hline, hstart, hcolumn, Option.bind_eq_bind, Option.bind_some]
  rfl

/-- If the offsets in a text are machine numbers, its table can be built, and then it tells the
position of each offset. -/
theorem ofText?_eq_some (h : text.utf8ByteSize < limit) :
    ∃ t, ofText? limit text = some t ∧ t.count = (LineStarts.ofText text).count ∧
      ∀ offset, t.position? offset = some ((LineStarts.ofText text).position offset) := by
  obtain ⟨t, ht, hholds⟩ := exists_ofText? h
  refine ⟨t, ht, ?_, hholds.position?⟩
  have hlength := congrArg List.length hholds
  rwa [Array.length_toList] at hlength

/-- An empty line counts, and so does what follows it. -/
example : (ofText? (2 ^ 32) "ab\ncd\n\nx").bind (·.position? 7) = some ⟨3, 0⟩ := by
  decide +kernel

end LineTable

end UiCatalog
