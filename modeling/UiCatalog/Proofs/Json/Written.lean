import Mathlib.Data.List.Basic
import Mathlib.Data.List.TakeWhile
import UiCatalog.Proofs.Json.Reader
/-!
# Reading what was written

A value is written as its tokens with space between them, and the reader makes the value of these
tokens again, whatever is open around it. So nothing that is written as JSON is lost.
-/

namespace UiCatalog.Json

/-! ## Strings -/

private theorem hexDigit?_hexDigit : ∀ n : Fin 16, Uuid.hexDigit? (hexDigit n) = some n := by
  decide

private theorem unit?_control {n : Nat} (hn : n < 0x20) :
    unit? '0' '0' (hexDigit (n / 16)) (hexDigit (n % 16)) = some n := by
  have hzero : Uuid.hexDigit? '0' = some 0 := rfl
  have hhigh := hexDigit?_hexDigit ⟨n / 16, by omega⟩
  have hlow := hexDigit?_hexDigit ⟨n % 16, by omega⟩
  simp only [unit?, hzero, hhigh, hlow, Fin.val_zero, Nat.zero_mul, Nat.add_zero, Nat.zero_add]
  rw [Nat.div_add_mod']

private theorem readString_plain {c : Char} (hquote : c ≠ '"') (hslash : c ≠ '\\')
    (hcontrol : ¬c.toNat < 0x20) (cs : List Char) :
    readString (c :: cs) = inFront c (readString cs) := by
  rw [readString, if_neg (not_or.mpr ⟨hslash, hcontrol⟩)]
  all_goals
    intros
    first | exact hquote ‹_› | exact hslash ‹_›

private theorem readString_escape (c : Char) (cs : List Char) :
    readString (escape c ++ cs) = inFront c (readString cs) := by
  unfold escape
  split_ifs with hquote hslash hn hr ht hb hf hcontrol
  · subst hquote
    rfl
  · subst hslash
    rfl
  · subst hn
    rfl
  · subst hr
    rfl
  · subst ht
    rfl
  · subst hb
    rfl
  · subst hf
    rfl
  · have hhigh : isHighSurrogate c.toNat = false := by simp [isHighSurrogate]; omega
    have hlow : isLowSurrogate c.toNat = false := by simp [isLowSurrogate]; omega
    simp only [List.cons_append, List.nil_append]
    rw [readString, unit?_control hcontrol]
    simp only [hhigh, hlow, Bool.false_eq_true, if_false, Char.ofNat_toNat]
  · exact readString_plain hquote hslash hcontrol cs

private theorem readString_flatMap_escape (read rest : List Char) :
    readString (read.flatMap escape ++ '"' :: rest) = some (read, rest) := by
  induction read with
  | nil => rfl
  | cons c read ih =>
    rw [List.flatMap_cons, List.append_assoc, readString_escape, ih]
    rfl

/-! ## Words -/

private theorem isDigit_of_mem_toDigits {n : Nat} {c : Char} (hc : c ∈ Nat.toDigits 10 n) :
    c.isDigit = true :=
  Nat.isDigit_of_mem_toDigits (by omega) (by omega) hc

private theorem eq_zero_of_head?_toDigits {n : Nat} (h : (Nat.toDigits 10 n).head? = some '0') :
    n = 0 := by
  induction n using Nat.strongRecOn with
  | ind n ih =>
    rw [Nat.toDigits_eq_if (by omega)] at h
    split at h
    · exact Nat.digitChar_eq_zero.mp (Option.some.inj h)
    · rw [List.head?_append_of_ne_nil _ Nat.toDigits_ne_nil] at h
      have hzero := ih (n / 10) (by omega) h
      omega

private theorem readSize_toDigits (n : Nat) : readSize (Nat.toDigits 10 n) = some (n : Rat) := by
  have hall : ∀ c ∈ Nat.toDigits 10 n, c.isDigit = true := fun _ => isDigit_of_mem_toDigits
  have hzero : ¬(Nat.toDigits 10 n = [] ∨
      (Nat.toDigits 10 n).head? = some '0' ∧ Nat.toDigits 10 n ≠ ['0']) := by
    rintro (hnil | ⟨hhead, hne⟩)
    · exact Nat.toDigits_ne_nil hnil
    · obtain rfl := eq_zero_of_head?_toDigits hhead
      exact hne rfl
  rw [readSize, List.takeWhile_eq_self_iff.mpr hall, List.dropWhile_eq_nil_iff.mpr hall]
  rw [if_neg hzero]
  simp [readFraction, readExponent, Nat.ofDigitChars_ten_toDigits]

private theorem readWord_toDigits (n : Nat) : readWord (Nat.toDigits 10 n) = some (.number n) := by
  have hdigit {c : Char} (hc : c.isDigit = false) {cs : List Char} :
      Nat.toDigits 10 n ≠ c :: cs := by
    intro heq
    have hmem : c ∈ Nat.toDigits 10 n := heq ▸ List.mem_cons_self
    rw [isDigit_of_mem_toDigits hmem] at hc
    simp at hc
  have hnumber : readNumber (Nat.toDigits 10 n) = readSize (Nat.toDigits 10 n) := by
    rw [readNumber]
    exact fun cs => hdigit rfl
  rw [readWord, hnumber, readSize_toDigits]
  · rfl
  all_goals exact hdigit rfl

/-! ## Tokens -/

mutual

def value : Json → Value
  | .number n => .number n
  | .text s => .text s
  | .array es => .array (values es)
  | .object ms => .object (memberValues ms)

def values : List Json → List Value
  | [] => []
  | e :: es => e.value :: values es

def memberValues : List (String × Json) → List (String × Value)
  | [] => []
  | (key, v) :: ms => (key, v.value) :: memberValues ms

end

mutual

def tokens : Json → List Token
  | .number n => [.word (.number n)]
  | .text s => [.text s]
  | .array [] => [.mark .openArray, .mark .closeArray]
  | .array (e :: es) =>
    .mark .openArray :: e.tokens ++ elementTokens es ++ [.mark .closeArray]
  | .object [] => [.mark .openObject, .mark .closeObject]
  | .object ((key, v) :: ms) =>
    .mark .openObject :: .text key :: .mark .colon :: v.tokens ++ memberTokens ms ++
      [.mark .closeObject]

def elementTokens : List Json → List Token
  | [] => []
  | e :: es => .mark .comma :: e.tokens ++ elementTokens es

def memberTokens : List (String × Json) → List Token
  | [] => []
  | (key, v) :: ms =>
    .mark .comma :: .text key :: .mark .colon :: v.tokens ++ memberTokens ms

end

private theorem scan_space {c : Char} (hc : isSpace c = true) (cs : List Char) :
    scan (c :: cs) = scan cs := by
  rw [scan, if_pos hc]

private theorem scan_spaces {spaces : List Char} (h : ∀ c ∈ spaces, isSpace c = true)
    (cs : List Char) : scan (spaces ++ cs) = scan cs := by
  induction spaces with
  | nil => rfl
  | cons c spaces ih =>
    obtain ⟨hc, h⟩ := List.forall_mem_cons.mp h
    rw [List.cons_append, scan_space hc, ih h]

private theorem scan_newline (depth : Nat) (cs : List Char) :
    scan (newline depth ++ cs) = scan cs := by
  refine scan_spaces (List.forall_mem_cons.mpr ⟨rfl, fun c hc => ?_⟩) cs
  obtain rfl := List.eq_of_mem_replicate hc
  rfl

private theorem scan_mark {c : Char} {mark : Mark} (hc : mark? c = some mark) (cs : List Char) :
    scan (c :: cs) = (scan cs).map (.mark mark :: ·) := by
  have hother : isSpace c = false ∧ c ≠ '"' := by
    unfold mark? at hc
    split at hc <;> simp_all [isSpace]
  rw [scan]
  simp [hother, hc]

private theorem scan_text {cs read rest : List Char} (h : readString cs = some (read, rest)) :
    scan ('"' :: cs) = (scan rest).map (.text (String.ofList read) :: ·) := by
  have hspace : ¬isSpace '"' = true := by decide
  rw [scan, if_neg hspace, if_pos rfl]
  split
  · rename_i hnone
    simp [h] at hnone
  · rename_i hsome
    obtain ⟨rfl, rfl⟩ := Prod.mk.inj (Option.some.inj (h.symm.trans hsome))
    rfl

private theorem scan_quote (s : String) (cs : List Char) :
    scan (quote s ++ cs) = (scan cs).map (.text s :: ·) := by
  have hread : readString (s.toList.flatMap escape ++ ['"'] ++ cs) = some (s.toList, cs) := by
    rw [List.append_assoc]
    exact readString_flatMap_escape s.toList cs
  have hscan := scan_text hread
  rw [String.ofList_toList] at hscan
  exact hscan

/-- Whether no word goes on at the start of a text. -/
def Delimited (cs : List Char) : Prop :=
  ∀ c ∈ cs.head?, isWordChar c = false

private theorem Delimited.takeWhile {cs : List Char} (h : Delimited cs) :
    cs.takeWhile isWordChar = [] := by
  cases cs with
  | nil => rfl
  | cons c cs => rw [List.takeWhile_cons, h c rfl, if_neg Bool.false_ne_true]

private theorem Delimited.dropWhile {cs : List Char} (h : Delimited cs) :
    cs.dropWhile isWordChar = cs := by
  cases cs with
  | nil => rfl
  | cons c cs => rw [List.dropWhile_cons, h c rfl, if_neg Bool.false_ne_true]

private theorem scan_word {c : Char} {word cs : List Char} {v : Value}
    (hword : ∀ c' ∈ c :: word, isWordChar c' = true) (hv : readWord (c :: word) = some v)
    (hcs : Delimited cs) : scan (c :: word ++ cs) = (scan cs).map (.word v :: ·) := by
  obtain ⟨hc, hword⟩ := List.forall_mem_cons.mp hword
  have hspace : ¬isSpace c = true := by
    intro hspace
    simp only [isSpace, Bool.or_eq_true, decide_eq_true_eq] at hspace
    rcases hspace with ((rfl | rfl) | rfl) | rfl <;> exact absurd hc (by decide)
  have hquote : c ≠ '"' := by
    rintro rfl
    exact absurd hc (by decide)
  have hmark : mark? c = none := by
    unfold mark?
    split
    case h_7 => rfl
    all_goals exact absurd hc (by decide)
  have htake : (word ++ cs).takeWhile isWordChar = word := by
    rw [List.takeWhile_append_of_pos hword, hcs.takeWhile, List.append_nil]
  have hdrop : (word ++ cs).dropWhile isWordChar = cs := by
    rw [List.dropWhile_append_of_pos hword, hcs.dropWhile]
  rw [List.cons_append, scan, if_neg hspace, if_neg hquote, hmark]
  simp only [hc, htake, hv, hdrop, if_true]

private theorem scan_number (n : Nat) {cs : List Char} (hcs : Delimited cs) :
    scan ((toString n).toList ++ cs) = (scan cs).map (.word (.number n) :: ·) := by
  have hall : ∀ c ∈ Nat.toDigits 10 n, isWordChar c = true := by
    intro c hc
    simp [isWordChar, Char.isAlphanum, isDigit_of_mem_toDigits hc]
  obtain ⟨d, ds, hds⟩ := List.exists_cons_of_ne_nil (Nat.toDigits_ne_nil : Nat.toDigits 10 n ≠ [])
  have hread := readWord_toDigits n
  rw [Nat.toString_eq_ofList_toDigits, String.toList_ofList]
  rw [hds] at hall hread ⊢
  exact scan_word hall hread hcs

private theorem delimited_cons {c : Char} (hc : isWordChar c = false) (cs : List Char) :
    Delimited (c :: cs) :=
  fun _ h => Option.some.inj h ▸ hc

private theorem delimited_newline (depth : Nat) (cs : List Char) :
    Delimited (newline depth ++ cs) :=
  delimited_cons rfl _

private theorem delimited_writeElements (depth : Nat) (es : List Json) {cs : List Char}
    (hcs : Delimited cs) : Delimited (writeElements depth es ++ cs) := by
  cases es with
  | nil => exact hcs
  | cons e es => exact delimited_cons rfl _

private theorem delimited_writeMembers (depth : Nat) (ms : List (String × Json)) {cs : List Char}
    (hcs : Delimited cs) : Delimited (writeMembers depth ms ++ cs) := by
  cases ms with
  | nil => exact hcs
  | cons m ms => exact delimited_cons rfl _

mutual

/-- What is written is cut into its tokens. -/
private theorem scan_write (depth : Nat) (j : Json) {cs : List Char} (hcs : Delimited cs) :
    scan (j.write depth ++ cs) = (scan cs).map (j.tokens ++ ·) := by
  match j with
  | .number n =>
    rw [write]
    exact scan_number n hcs
  | .text s =>
    rw [write]
    exact scan_quote s cs
  | .array [] =>
    simp only [write, tokens, List.cons_append, List.nil_append]
    rw [scan_mark rfl, scan_mark rfl, Option.map_map]
    rfl
  | .array (e :: es) =>
    have hend : Delimited (newline depth ++ (']' :: cs)) := delimited_newline depth _
    simp only [write, tokens, List.cons_append, List.append_assoc, List.nil_append]
    rw [scan_mark rfl, scan_newline, scan_write (depth + 1) e (delimited_writeElements _ es hend),
      scan_writeElements (depth + 1) es hend, scan_newline, scan_mark rfl]
    simp only [Option.map_map]
    rfl
  | .object [] =>
    simp only [write, tokens, List.cons_append, List.nil_append]
    rw [scan_mark rfl, scan_mark rfl, Option.map_map]
    rfl
  | .object ((key, v) :: ms) =>
    have hend : Delimited (newline depth ++ ('}' :: cs)) := delimited_newline depth _
    simp only [write, tokens, List.cons_append, List.append_assoc, List.nil_append]
    rw [scan_mark rfl, scan_newline, scan_quote, scan_mark rfl, scan_space rfl,
      scan_write (depth + 1) v (delimited_writeMembers _ ms hend),
      scan_writeMembers (depth + 1) ms hend, scan_newline, scan_mark rfl]
    simp only [Option.map_map]
    rfl

theorem scan_writeElements (depth : Nat) (es : List Json) {cs : List Char} (hcs : Delimited cs) :
    scan (writeElements depth es ++ cs) = (scan cs).map (elementTokens es ++ ·) := by
  match es with
  | [] => simp [writeElements, elementTokens]
  | e :: es =>
    simp only [writeElements, elementTokens, List.cons_append, List.append_assoc]
    rw [scan_mark rfl, scan_newline, scan_write depth e (delimited_writeElements depth es hcs),
      scan_writeElements depth es hcs]
    simp only [Option.map_map]
    rfl

theorem scan_writeMembers (depth : Nat) (ms : List (String × Json)) {cs : List Char}
    (hcs : Delimited cs) :
    scan (writeMembers depth ms ++ cs) = (scan cs).map (memberTokens ms ++ ·) := by
  match ms with
  | [] => simp [writeMembers, memberTokens]
  | (key, v) :: ms =>
    simp only [writeMembers, memberTokens, List.cons_append, List.append_assoc, List.nil_append]
    rw [scan_mark rfl, scan_newline, scan_quote, scan_mark rfl, scan_space rfl,
      scan_write depth v (delimited_writeMembers depth ms hcs), scan_writeMembers depth ms hcs]
    simp only [Option.map_map]
    rfl

end

/-! ## Values -/

private theorem tokens_ne_closeArray (j : Json) (ts later : List Token) :
    j.tokens ++ ts ≠ .mark .closeArray :: later := by
  match j with
  | .number n => simp [tokens]
  | .text s => simp [tokens]
  | .array [] => simp [tokens]
  | .array (e :: es) => simp [tokens]
  | .object [] => simp [tokens]
  | .object ((key, v) :: ms) => simp [tokens]

private theorem readItem_openArray {ts : List Token} (h : ∀ later, ts ≠ .mark .closeArray :: later)
    (stack : List Open) :
    readItem stack (.mark .openArray :: ts) = readItem (.array [] :: stack) ts := by
  rw [readItem]
  exact h

mutual

/-- The tokens of a value are read as that value, whatever is open around it. -/
private theorem readItem_tokens (j : Json) (stack : List Open) (ts : List Token) :
    readItem stack (j.tokens ++ ts) = readAfter j.value stack ts := by
  match j with
  | .number n => rfl
  | .text s => rfl
  | .array [] => rfl
  | .array (e :: es) =>
    simp only [tokens, List.cons_append, List.append_assoc, List.nil_append]
    rw [readItem_openArray (tokens_ne_closeArray e _), readItem_tokens e,
      readAfter_elementTokens es]
    rfl
  | .object [] => rfl
  | .object ((key, v) :: ms) =>
    simp only [tokens, List.cons_append, List.append_assoc, List.nil_append]
    rw [readItem, readItem_tokens v, readAfter_memberTokens ms]
    rfl

theorem readAfter_elementTokens (es : List Json) (v : Value) (read : List Value)
    (stack : List Open) (ts : List Token) :
    readAfter v (.array read :: stack) (elementTokens es ++ .mark .closeArray :: ts) =
      readAfter (.array (read.reverse ++ v :: values es)) stack ts := by
  match es with
  | [] =>
    rw [elementTokens, List.nil_append, readAfter, List.reverse_cons]
    rfl
  | e :: es =>
    simp only [elementTokens, List.cons_append, List.append_assoc]
    rw [readAfter, readItem_tokens e, readAfter_elementTokens es, List.reverse_cons,
      List.append_assoc]
    rfl

theorem readAfter_memberTokens (ms : List (String × Json)) (key : String) (v : Value)
    (read : List (String × Value)) (stack : List Open) (ts : List Token) :
    readAfter v (.object read key :: stack) (memberTokens ms ++ .mark .closeObject :: ts) =
      readAfter (.object (read.reverse ++ (key, v) :: memberValues ms)) stack ts := by
  match ms with
  | [] =>
    rw [memberTokens, List.nil_append, readAfter, List.reverse_cons]
    rfl
  | (key', v') :: ms =>
    simp only [memberTokens, List.cons_append, List.append_assoc]
    rw [readAfter, readItem_tokens v', readAfter_memberTokens ms, List.reverse_cons,
      List.append_assoc]
    rfl

end

end UiCatalog.Json
