import Mathlib.Data.List.TakeWhile
import UiCatalog.Proofs.Text.LineStarts
import UiCatalog.Text.LineTable
/-!
# Line feeds before an offset

The position of an offset is told by the line feeds among the bytes before it: how many there are,
and how far behind the last one the offset is. This determines the position, and positions are
ordered as their offsets are.
-/

namespace UiCatalog

open String (utf8EncodeChar)

/-! ## What a position says -/

/-- Whether the line of an offset starts at `start`: behind the last line feed before the offset, or
where the text starts if there is none. -/
inductive StartsLineOf (bytes : List UInt8) (offset : Nat) : Nat → Prop where
  | first (clear : ∀ i < offset, bytes[i]? ≠ some Text.lineFeed) : StartsLineOf bytes offset 0
  | behind {feed : Nat} (before : feed < offset) (isFeed : bytes[feed]? = some Text.lineFeed)
      (last : ∀ i, feed < i → i < offset → bytes[i]? ≠ some Text.lineFeed) :
    StartsLineOf bytes offset (feed + 1)

/-- Whether a position is the one of an offset: its line counts the line feeds before the offset,
and its column is the distance from where the line starts. -/
structure Position.IsAt (bytes : List UInt8) (offset : Nat) (p : Position) : Prop where
  line : p.line = (bytes.take offset).count Text.lineFeed
  column : ∃ start, StartsLineOf bytes offset start ∧ start + p.column = offset

variable {bytes : List UInt8} {o p start start' : Nat}

namespace StartsLineOf

private theorem unique (h : StartsLineOf bytes o start) (h' : StartsLineOf bytes o start') :
    start = start' := by
  cases h with
  | first clear =>
    cases h' with
    | first => rfl
    | @behind feed before isFeed => exact absurd isFeed (clear feed before)
  | @behind feed before isFeed last =>
    cases h' with
    | first clear => exact absurd isFeed (clear feed before)
    | @behind feed' before' isFeed' last' =>
      rcases Nat.lt_trichotomy feed feed' with hlt | heq | hgt
      · exact absurd isFeed' (last feed' hlt before')
      · exact congrArg Nat.succ heq
      · exact absurd isFeed (last' feed hgt before)

private theorem le (h : StartsLineOf bytes o start) : start ≤ o := by
  cases h with
  | first => exact Nat.zero_le o
  | behind before => exact before

private theorem extend (h : StartsLineOf bytes o start)
    (hclear : ∀ i, o ≤ i → i < p → bytes[i]? ≠ some Text.lineFeed) (hle : o ≤ p) :
    StartsLineOf bytes p start := by
  cases h with
  | first clear =>
    refine .first fun i hi => ?_
    rcases Nat.lt_or_ge i o with hlt | hge
    · exact clear i hlt
    · exact hclear i hge hi
  | behind before isFeed last =>
    refine .behind (Nat.lt_of_lt_of_le before hle) isFeed fun i hfeed hi => ?_
    rcases Nat.lt_or_ge i o with hlt | hge
    · exact last i hfeed hlt
    · exact hclear i hge hi

end StartsLineOf

private theorem count_take_le (bytes : List UInt8) (hle : o ≤ p) :
    (bytes.take o).count Text.lineFeed ≤ (bytes.take p).count Text.lineFeed :=
  (List.take_sublist_take_left hle).count_le Text.lineFeed

private theorem count_take_lt {i : Nat} (ho : o ≤ i) (hp : i < p)
    (hi : bytes[i]? = some Text.lineFeed) :
    (bytes.take o).count Text.lineFeed < (bytes.take p).count Text.lineFeed := by
  have hbefore := count_take_le bytes ho
  have hbehind := count_take_le bytes (show i + 1 ≤ p from hp)
  have hfeed : (bytes.take (i + 1)).count Text.lineFeed =
      (bytes.take i).count Text.lineFeed + 1 := by
    rw [List.take_add_one, hi, List.count_append]
    rfl
  omega

namespace Position.IsAt

variable {a b : Position}

private theorem unique (ha : a.IsAt bytes o) (hb : b.IsAt bytes o) : a = b := by
  obtain ⟨s, hs, hcolumn⟩ := ha.column
  obtain ⟨s', hs', hcolumn'⟩ := hb.column
  have hstart := hs.unique hs'
  have hsame : a.line = b.line ∧ a.column = b.column :=
    ⟨ha.line.trans hb.line.symm, by omega⟩
  cases a
  cases b
  rwa [Position.mk.injEq]

private theorem lt (ha : a.IsAt bytes o) (hb : b.IsAt bytes p) (h : o < p) : a < b := by
  have hle := count_take_le bytes h.le
  rcases Nat.lt_or_eq_of_le hle with hlt | heq
  · left
    rw [ha.line, hb.line]
    exact hlt
  · right
    refine ⟨ha.line.trans (heq.trans hb.line.symm), ?_⟩
    obtain ⟨s, hs, hcolumn⟩ := ha.column
    obtain ⟨s', hs', hcolumn'⟩ := hb.column
    have hclear : ∀ i, o ≤ i → i < p → bytes[i]? ≠ some Text.lineFeed := by
      intro i ho hp hi
      exact (count_take_lt ho hp hi).ne heq
    have hstart := (hs.extend hclear h.le).unique hs'
    omega

end Position.IsAt

/-! ## Line starts -/

/-- The offsets behind the line feeds among some bytes, of which the first is at `offset`. -/
def Text.behindFeeds (offset : Nat) (bytes : List UInt8) : List Nat :=
  bytes.findIdxs (· == Text.lineFeed) (offset + 1)

namespace Text

private theorem mem_behindFeeds_iff {x : Nat} :
    x ∈ behindFeeds 0 bytes ↔ ∃ feed, bytes[feed]? = some lineFeed ∧ feed + 1 = x := by
  rw [behindFeeds, List.mem_findIdxs_iff_getElem_sub_pos]
  constructor
  · rintro ⟨hpos, hlt, hfeed⟩
    refine ⟨x - (0 + 1), ?_, by omega⟩
    rw [List.getElem?_eq_getElem hlt, eq_of_beq hfeed]
  · rintro ⟨feed, hfeed, rfl⟩
    obtain ⟨hlt, heq⟩ := List.getElem?_eq_some_iff.mp hfeed
    exact ⟨by omega, by simpa using hlt, by simpa using heq⟩

private theorem takeWhile_behindFeeds (offset n : Nat) (bytes : List UInt8) :
    (behindFeeds offset bytes).takeWhile (· ≤ offset + n) = behindFeeds offset (bytes.take n) := by
  induction bytes generalizing offset n with
  | nil => simp [behindFeeds]
  | cons b bytes ih =>
    cases n with
    | zero =>
      rw [List.take_zero]
      refine List.takeWhile_eq_nil_iff.mpr fun hpos hle => ?_
      have hge := List.ge_of_mem_findIdxs _ (List.get_mem _ ⟨0, hpos⟩)
      have hle := of_decide_eq_true hle
      omega
    | succ n =>
      have hlater := ih (offset + 1) n
      have hoffset : offset + 1 + n = offset + (n + 1) := by omega
      rw [hoffset] at hlater
      unfold behindFeeds at hlater ⊢
      rw [List.take_succ_cons, List.findIdxs_cons, List.findIdxs_cons]
      by_cases hb : (b == lineFeed) = true
      · have hle : decide (offset + 1 ≤ offset + (n + 1)) = true := decide_eq_true (by omega)
        rw [if_pos hb, if_pos hb, List.takeWhile_cons, if_pos hle, hlater]
      · rw [if_neg hb, if_neg hb, hlater]

private theorem startsLineOf_getLastD (bytes : List UInt8) (offset : Nat) :
    StartsLineOf bytes offset ((behindFeeds 0 (bytes.take offset)).getLastD 0) := by
  have hmem {i : Nat} (hi : i < offset) (hfeed : bytes[i]? = some lineFeed) :
      i + 1 ∈ behindFeeds 0 (bytes.take offset) :=
    mem_behindFeeds_iff.mpr ⟨i, by rwa [List.getElem?_take_of_lt hi], rfl⟩
  rcases List.eq_nil_or_concat (behindFeeds 0 (bytes.take offset)) with hnil | ⟨xs, x, hconcat⟩
  · rw [hnil] at hmem ⊢
    exact .first fun i hi hfeed => List.not_mem_nil (hmem hi hfeed)
  · rw [List.concat_eq_append] at hconcat
    have hsorted : (xs ++ [x]).Pairwise (· < ·) := hconcat ▸ List.pairwise_findIdxs
    have hlast : x ∈ behindFeeds 0 (bytes.take offset) := by simp [hconcat]
    obtain ⟨feed, hfeed, rfl⟩ := mem_behindFeeds_iff.mp hlast
    obtain ⟨hbefore, hfeed⟩ : feed < offset ∧ bytes[feed]? = some lineFeed := by
      simpa [List.getElem?_take] using hfeed
    rw [hconcat, getLastD_append_cons]
    refine .behind hbefore hfeed fun i hi hoffset hagain => ?_
    have hin := hmem hoffset hagain
    rw [hconcat, List.mem_append, List.mem_singleton] at hin
    have hxs := (List.pairwise_append.mp hsorted).2.2
    rcases hin with hin | heq
    · have hlt := hxs (i + 1) hin (feed + 1) (List.mem_singleton_self _)
      omega
    · omega

private theorem lineFeed_mem_utf8EncodeChar_iff {c : Char} :
    lineFeed ∈ utf8EncodeChar c ↔ c = '\n' := by
  -- the bytes of a longer encoding are 128 or more
  have hbyte {n : Nat} : lineFeed = UInt8.ofNat n ↔ n % 2 ^ 8 = 10 := by
    rw [← UInt8.toNat_inj, UInt8.toNat_ofNat', eq_comm]
    rfl
  have hfeed : c = '\n' ↔ c.val.toNat = 10 := by
    rw [← Char.val_inj, ← UInt32.toNat_inj]
    rfl
  rw [hfeed]
  unfold utf8EncodeChar
  extract_lets v
  split_ifs <;> simp only [List.mem_cons, List.not_mem_nil, or_false, hbyte] <;> omega

end Text

namespace LineStarts

private theorem after_eq_behindFeeds (offset : Nat) (cs : List Char) :
    after offset cs = Text.behindFeeds offset (cs.flatMap utf8EncodeChar) := by
  induction cs generalizing offset with
  | nil => rfl
  | cons c cs ih =>
    have hfront : (utf8EncodeChar c).findIdxs (· == Text.lineFeed) (offset + 1) =
        if c = '\n' then [offset + c.utf8Size] else [] := by
      split_ifs with hc
      · rw [hc]
        rfl
      · rw [List.findIdxs_eq_nil_iff]
        intro b hb
        refine beq_false_of_ne ?_
        rintro rfl
        exact hc (Text.lineFeed_mem_utf8EncodeChar_iff.mp hb)
    have hlater : offset + 1 + (utf8EncodeChar c).length = offset + c.utf8Size + 1 := by
      rw [String.length_utf8EncodeChar]
      omega
    rw [after_cons, ih, Text.behindFeeds, Text.behindFeeds, List.flatMap_cons,
      List.findIdxs_append, hfront, hlater]

variable (text : String)

theorem later_ofText : (ofText text).later = Text.behindFeeds 0 (Text.bytes text) := by
  have hbytes : Text.bytes text = text.toList.flatMap utf8EncodeChar := by
    rw [Text.bytes, ← String.utf8Encode_toList, List.utf8Encode, List.data_toByteArray]
  rw [hbytes]
  exact after_eq_behindFeeds 0 text.toList

private theorem begun_ofText (offset : Nat) : (ofText text).later.takeWhile (· ≤ offset) =
    Text.behindFeeds 0 ((Text.bytes text).take offset) := by
  have htake := Text.takeWhile_behindFeeds 0 offset (Text.bytes text)
  rw [Nat.zero_add] at htake
  rw [later_ofText, htake]

/-- The position of an offset, also past the end of the text. -/
private theorem position_isAt (offset : Nat) :
    ((ofText text).position offset).IsAt (Text.bytes text) offset := by
  have hstart := Text.startsLineOf_getLastD (Text.bytes text) offset
  rw [position, begun_ofText]
  refine ⟨List.length_findIdxs, _, hstart, ?_⟩
  exact Nat.add_sub_of_le hstart.le

theorem isAt_iff {offset : Nat} {p : Position} :
    p.IsAt (Text.bytes text) offset ↔ p = (ofText text).position offset :=
  ⟨fun h => h.unique (position_isAt text offset), fun h => h ▸ position_isAt text offset⟩

theorem count_ofText : (ofText text).count = (Text.bytes text).count Text.lineFeed + 1 := by
  rw [count, later_ofText]
  exact congrArg Nat.succ List.length_findIdxs

theorem position_lt {o p : Nat} (h : o < p) :
    (ofText text).position o < (ofText text).position p :=
  (position_isAt text o).lt (position_isAt text p) h

end LineStarts

end UiCatalog
