import UiCatalog.Proofs.Text.Quoted
import UiCatalog.Proofs.Token.Scan
/-!
# Spelling

A text spells tokens if these are scanned from it whatever comes before and after it. Texts that
spell something can be put one after the other.
-/

namespace UiCatalog.Token

open String (utf8Len)

/-- Whether tokens of which `L` holds are scanned from a text whatever comes before and after. -/
def Spells (s : String) (L : List Token → Prop) : Prop :=
  ∀ offset rest, ∃ ts, L ts ∧
    scanFrom offset (s.toList ++ rest) = ts ++ scanFrom (offset + s.utf8ByteSize) rest

namespace Spells

variable {s t : String} {L M : List Token → Prop}

theorem mono (hs : Spells s L) (h : ∀ ts, L ts → M ts) : Spells s M := by
  intro offset rest
  obtain ⟨ts, hts, hscan⟩ := hs offset rest
  exact ⟨ts, h ts hts, hscan⟩

theorem append (hs : Spells s L) (ht : Spells t M) :
    Spells (s ++ t) fun ts => ∃ us vs, ts = us ++ vs ∧ L us ∧ M vs := by
  intro offset rest
  obtain ⟨us, hus, hfirst⟩ := hs offset (t.toList ++ rest)
  obtain ⟨vs, hvs, hsecond⟩ := ht (offset + s.utf8ByteSize) rest
  refine ⟨us ++ vs, ⟨us, vs, rfl, hus, hvs⟩, ?_⟩
  rw [String.toList_append, List.append_assoc, hfirst, hsecond, String.utf8ByteSize_append,
    List.append_assoc, Nat.add_assoc]

theorem scan (hs : Spells s L) : L (Token.scan s) := by
  obtain ⟨ts, hts, hscan⟩ := hs 0 []
  rw [List.append_nil, scanFrom, List.append_nil] at hscan
  rwa [Token.scan, hscan]

end Spells

theorem spells_blank {s : String} (hs : s.toList.all isSpace = true) : Spells s (· = []) := by
  intro offset rest
  refine ⟨[], rfl, ?_⟩
  rw [← utf8Len_toList, List.nil_append]
  generalize s.toList = cs at hs
  induction cs generalizing offset with
  | nil => rfl
  | cons c cs ih =>
    obtain ⟨hc, hcs⟩ := Bool.and_eq_true_iff.mp hs
    rw [List.cons_append, scanFrom_space hc, ih _ hcs, String.utf8Len_cons, Nat.add_assoc,
      Nat.add_comm c.utf8Size]

theorem spells_lexeme {s : String} {c : Char} {cs : List Char} {kind : TokenKind}
    (hs : s.toList = c :: cs) (h : ∀ rest, lexeme c (cs ++ rest) = ⟨some kind, c :: cs, rest⟩) :
    Spells s fun ts => ∃ t : Token, ts = [t] ∧ t.kind = kind ∧ t.text = s := by
  intro offset rest
  refine ⟨[⟨kind, s, offset⟩], ⟨_, rfl, rfl, rfl⟩, ?_⟩
  rw [hs, List.cons_append, scanFrom_cons, h, ← hs, utf8Len_toList, ofLexeme, String.ofList_toList]
  rfl

private theorem stringTail_escape_quote (cs rest : List Char) :
    stringTail (Text.escape cs ++ '"' :: rest) = ⟨true, Text.escape cs ++ ['"'], rest⟩ := by
  induction cs with
  | nil => rfl
  | cons c cs ih =>
    by_cases hc : c = '\\' ∨ c = '"'
    · have hfeed : c ≠ '\n' := by
        rintro rfl
        simp at hc
      rw [Text.escape_cons_mark hc, List.cons_append, List.cons_append, stringTail_escape hfeed, ih]
      rfl
    · obtain ⟨hslash, hquote⟩ := not_or.mp hc
      rw [Text.escape_cons_plain hc, List.cons_append, stringTail_cons hquote hslash, ih]
      rfl

theorem spells_quote (s : String) :
    Spells (Text.quote s) fun ts => ∃ t : Token, ts = [t] ∧ t.kind = .string ∧
      Text.unquote t.text = s := by
  have hlexeme (rest : List Char) :
      lexeme '"' (Text.escape s.toList ++ ['"'] ++ rest) =
        ⟨some .string, '"' :: (Text.escape s.toList ++ ['"']), rest⟩ := by
    unfold lexeme
    rw [if_neg (by decide), if_neg (by decide), List.append_assoc, List.singleton_append]
    simp only [stringTail_escape_quote]
    rfl
  refine (spells_lexeme String.toList_ofList hlexeme).mono ?_
  rintro ts ⟨t, rfl, hkind, htext⟩
  have hvalue : Text.unquote t.text = s := htext ▸ Text.unquote_quote s
  exact ⟨t, rfl, hkind, hvalue⟩

def isWord (s : String) : Bool :=
  match s.toList with
  | [] => false
  | c :: cs => isWordStart c && cs.all isWordPart

theorem spells_word {s : String} (hs : isWord s = true) :
    Spells (s ++ "(") fun ts => ∃ k o : Token, ts = [k, o] ∧ k.kind = .identifier ∧ k.text = s ∧
      o.kind = .openParen := by
  intro offset rest
  rw [isWord] at hs
  split at hs
  · simp at hs
  · rename_i c cs hword
    obtain ⟨hstart, hparts⟩ := Bool.and_eq_true_iff.mp hs
    have hparts : ∀ d ∈ cs, isWordPart d = true := List.all_eq_true.mp hparts
    -- the word is taken as far as it goes, so it ends only where something else follows
    have hparen : ¬isWordPart '(' = true := by decide
    have hfirst : lexeme c (cs ++ '(' :: rest) = ⟨some .identifier, c :: cs, '(' :: rest⟩ := by
      rw [lexeme_word hstart, List.takeWhile_append_of_pos hparts,
        List.dropWhile_append_of_pos hparts, List.takeWhile_cons_of_neg hparen,
        List.dropWhile_cons_of_neg hparen, List.append_nil]
    have hsecond : lexeme '(' rest = ⟨some .openParen, ['('], rest⟩ := rfl
    have hlist : (s ++ "(").toList ++ rest = c :: (cs ++ '(' :: rest) := by
      rw [String.toList_append, hword]
      simp
    have hsize : (s ++ "(").utf8ByteSize = utf8Len (c :: cs) + utf8Len ['('] := by
      rw [String.utf8ByteSize_append, ← utf8Len_toList s, hword]
      rfl
    refine ⟨[⟨.identifier, s, offset⟩, ⟨.openParen, "(", offset + utf8Len (c :: cs)⟩],
      ⟨_, _, rfl, rfl, rfl, rfl⟩, ?_⟩
    rw [hlist, scanFrom_cons, hfirst, scanFrom_cons, hsecond, hsize, ← Nat.add_assoc, ← hword,
      ofLexeme, String.ofList_toList]
    rfl

end UiCatalog.Token
