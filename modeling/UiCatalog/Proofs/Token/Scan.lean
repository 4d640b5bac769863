import Mathlib.Data.String.Basic
import UiCatalog.Proofs.Token.Lexeme
/-!
# Scanning in parts

A line feed parts a text: if what comes before it has only valid tokens, both parts are scanned by
themselves, the second one with its offsets moved.
-/

namespace UiCatalog.Token

open String (utf8Len)

def move (n : Nat) (t : Token) : Token :=
  { t with start := t.start + n }

@[simp]
theorem move_kind (n : Nat) (t : Token) : (t.move n).kind = t.kind :=
  rfl

@[simp]
theorem move_text (n : Nat) (t : Token) : (t.move n).text = t.text :=
  rfl

private theorem utf8Len_lexeme (c : Char) (cs : List Char) :
    utf8Len (lexeme c cs).text + utf8Len (lexeme c cs).rest = utf8Len (c :: cs) := by
  rw [← String.utf8Len_append, lexeme_append]

def ofLexeme (offset : Nat) (l : Lexeme) : List Token :=
  l.kind.toList.map fun kind => ⟨kind, String.ofList l.text, offset⟩

theorem scanFrom_cons (offset : Nat) (c : Char) (cs : List Char) :
    scanFrom offset (c :: cs) = ofLexeme offset (lexeme c cs) ++
      scanFrom (offset + utf8Len (lexeme c cs).text) (lexeme c cs).rest := by
  rw [scanFrom, ofLexeme, String.utf8ByteSize_ofList]
  split <;> rename_i hkind <;> rw [hkind] <;> rfl

/-- Induction along the lexemes of a text. -/
theorem scanFrom_induction {P : Nat → List Char → Prop} (hnil : ∀ offset, P offset [])
    (hcons : ∀ offset c cs,
      P (offset + utf8Len (lexeme c cs).text) (lexeme c cs).rest → P offset (c :: cs))
    (offset : Nat) (cs : List Char) : P offset cs := by
  induction offset, cs using scanFrom.induct with
  | case1 offset => exact hnil offset
  | case2 offset c cs _ _ _ ih =>
    rw [String.utf8ByteSize_ofList] at ih
    exact hcons offset c cs ih
  | case3 offset c cs _ _ _ _ ih =>
    rw [String.utf8ByteSize_ofList] at ih
    exact hcons offset c cs ih

theorem scanFrom_space {c : Char} (hc : isSpace c = true) (offset : Nat) (cs : List Char) :
    scanFrom offset (c :: cs) = scanFrom (offset + c.utf8Size) cs := by
  rw [scanFrom_cons, lexeme_space hc]
  cases cs with
  | nil => simp [ofLexeme]
  | cons d cs =>
    by_cases hd : isSpace d = true
    · rw [scanFrom_cons _ d cs, lexeme_space hd, List.takeWhile_cons_of_pos hd,
        List.dropWhile_cons_of_pos hd]
      simp only [ofLexeme, Option.toList_none, List.map_nil, List.nil_append, String.utf8Len_cons]
      congr 1
      omega
    · rw [List.takeWhile_cons_of_neg hd, List.dropWhile_cons_of_neg hd]
      simp [ofLexeme]

/-- Valid tokens and the tokens after a line feed are scanned one after the other. -/
theorem scanFrom_append_lineFeed {offset : Nat} {cs : List Char}
    (hvalid : ∀ t ∈ scanFrom offset cs, t.kind ≠ .invalid) (ds : List Char) :
    scanFrom offset (cs ++ '\n' :: ds) =
      scanFrom offset cs ++ scanFrom (offset + utf8Len cs + 1) ds := by
  induction hn : cs.length using Nat.strong_induction_on generalizing offset cs with
  | _ n ih =>
    cases cs with
    | nil =>
      rw [List.nil_append, scanFrom_space (by decide), scanFrom]
      rfl
    | cons c cs =>
      by_cases hspace : isSpace c = true
      -- a run of blanks may go on after the line feed, so it is taken apart
      · have hlater := hvalid
        rw [scanFrom_space hspace] at hlater ⊢
        have hcs := ih cs.length (by simp [← hn]) hlater rfl
        have hoffset : offset + utf8Len (c :: cs) + 1 = offset + c.utf8Size + utf8Len cs + 1 := by
          rw [String.utf8Len_cons]
          omega
        rw [List.cons_append, scanFrom_space hspace, hcs, hoffset]
      · rw [scanFrom_cons, List.forall_mem_append] at hvalid
        obtain ⟨hfront, hlater⟩ := hvalid
        have hkind : (lexeme c cs).kind ≠ some .invalid := by
          intro hkind
          apply hfront ⟨.invalid, String.ofList (lexeme c cs).text, offset⟩
          · simp [ofLexeme, hkind]
          · rfl
        have hblank : isSpace c = false := by simpa using hspace
        have hbefore := lexeme_before hblank hkind (by decide) (fun _ => rfl) ds
        have hlength : (lexeme c cs).rest.length < n := hn ▸ lexeme_rest_length c cs
        have hrest := ih _ hlength hlater rfl
        rw [List.cons_append, scanFrom_cons, hbefore, scanFrom_cons offset c cs, List.append_assoc,
          ← utf8Len_lexeme, ← Nat.add_assoc, ← hrest]
        rfl

theorem scanFrom_bounds {offset : Nat} {cs : List Char} {t : Token} (ht : t ∈ scanFrom offset cs) :
    offset ≤ t.start ∧ t.stop ≤ offset + utf8Len cs := by
  induction offset, cs using scanFrom_induction with
  | hnil => simp [scanFrom] at ht
  | hcons offset c cs ih =>
    have htaken := utf8Len_lexeme c cs
    rw [scanFrom_cons, List.mem_append] at ht
    rcases ht with hfront | hlater
    · obtain ⟨kind, _, rfl⟩ := List.mem_map.mp hfront
      have hstop : offset + utf8Len (lexeme c cs).text ≤ offset + utf8Len (c :: cs) := by omega
      refine ⟨Nat.le_refl offset, ?_⟩
      rwa [stop, String.utf8ByteSize_ofList]
    · obtain ⟨hstart, hstop⟩ := ih hlater
      omega

theorem scanFrom_move (offset n : Nat) (cs : List Char) :
    scanFrom (offset + n) cs = (scanFrom offset cs).map (move n) := by
  induction offset, cs using scanFrom_induction with
  | hnil => simp [scanFrom]
  | hcons offset c cs ih =>
    have hfront : ofLexeme (offset + n) (lexeme c cs) =
        (ofLexeme offset (lexeme c cs)).map (move n) := by
      rw [ofLexeme, ofLexeme, List.map_map]
      rfl
    rw [scanFrom_cons, scanFrom_cons offset, List.map_append, ← ih, hfront, Nat.add_right_comm]

end UiCatalog.Token
