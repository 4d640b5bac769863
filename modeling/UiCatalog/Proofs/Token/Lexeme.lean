import UiCatalog.Proofs.Text.LineStarts
import UiCatalog.Token.Scan
/-!
# Where lexemes end

A lexeme that is no invalid token ends where it does whatever follows the text, as long as that does
not start with a part of a word, and with a line feed where a comment may be open.
-/

namespace UiCatalog

namespace Token

def Run.before (r : Run) (ds : List Char) : Run :=
  { r with rest := r.rest ++ ds }

theorem stringTail_cons {c : Char} (hquote : c ≠ '"') (hslash : c ≠ '\\') (cs : List Char) :
    stringTail (c :: cs) = (stringTail cs).cons c := by
  rw [stringTail]
  · exact fun heq => hquote heq
  all_goals
    intros
    exact hslash ‹_›

theorem stringTail_escape {c : Char} (hc : c ≠ '\n') (cs : List Char) :
    stringTail ('\\' :: c :: cs) = ((stringTail cs).cons c).cons '\\' := by
  rw [stringTail]
  exact fun heq => hc heq

theorem stringTail_induction {P : List Char → Prop} (nil : P []) (quote : ∀ cs, P ('"' :: cs))
    (slash : P ['\\']) (feed : ∀ cs, P ('\\' :: '\n' :: cs))
    (escape : ∀ c cs, c ≠ '\n' → P cs → P ('\\' :: c :: cs))
    (plain : ∀ c cs, c ≠ '"' → c ≠ '\\' → P cs → P (c :: cs)) (cs : List Char) : P cs := by
  fun_induction stringTail cs with
  | case1 => exact nil
  | case2 cs => exact quote cs
  | case3 => exact slash
  | case4 cs => exact feed cs
  | case5 c cs hfeed ih => exact escape c cs hfeed ih
  | case6 c cs hquote hnil _ hescape ih =>
    have hslash : c ≠ '\\' := by
      intro heq
      cases cs with
      | nil => exact hnil heq rfl
      | cons e cs => exact hescape e cs heq rfl
    exact plain c cs hquote hslash ih

private theorem stringTail_before {cs : List Char} (h : (stringTail cs).complete = true)
    (ds : List Char) : stringTail (cs ++ ds) = (stringTail cs).before ds := by
  induction cs using stringTail_induction with
  | nil => simp [stringTail] at h
  | quote cs => simp [stringTail, Run.before]
  | slash => simp [stringTail] at h
  | feed cs => simp [stringTail] at h
  | escape c cs hfeed ih =>
    rw [stringTail_escape hfeed] at h ⊢
    have hcons : '\\' :: c :: cs ++ ds = '\\' :: c :: (cs ++ ds) := rfl
    rw [hcons, stringTail_escape hfeed, ih h]
    rfl
  | plain c cs hquote hslash ih =>
    rw [stringTail_cons hquote hslash] at h ⊢
    rw [List.cons_append, stringTail_cons hquote hslash, ih h]
    rfl

private theorem commentTail_before {cs : List Char} (h : (commentTail cs).complete = true)
    (ds : List Char) : commentTail (cs ++ ds) = (commentTail cs).before ds := by
  fun_induction commentTail cs with
  | case1 => simp at h
  | case2 cs => simp [commentTail, Run.before]
  | case3 c cs hne ih =>
    cases cs with
    | nil => simp [commentTail, Run.cons] at h
    | cons e cs =>
      rw [List.cons_append, commentTail, ih h]
      · rfl
      · intro cs' hstar heq
        exact hne cs hstar (by rw [(List.cons.inj heq).1])

theorem lexeme_space {c : Char} (hc : isSpace c = true) (cs : List Char) :
    lexeme c cs = ⟨none, c :: cs.takeWhile isSpace, cs.dropWhile isSpace⟩ :=
  if_pos hc

private theorem not_isSpace_of_isWordStart {c : Char} (hc : isWordStart c = true) :
    isSpace c = false := by
  by_contra hspace
  simp only [isSpace, Bool.not_eq_false, Bool.or_eq_true, beq_iff_eq] at hspace
  rcases hspace with (((rfl | rfl) | rfl) | rfl) | rfl <;> exact absurd hc (by decide)

theorem lexeme_word {c : Char} (hc : isWordStart c = true) (cs : List Char) :
    lexeme c cs = ⟨some .identifier, c :: cs.takeWhile isWordPart, cs.dropWhile isWordPart⟩ := by
  unfold lexeme
  rw [not_isSpace_of_isWordStart hc, if_neg Bool.false_ne_true, if_pos hc]

def Lexeme.before (l : Lexeme) (ds : List Char) : Lexeme :=
  { l with rest := l.rest ++ ds }

/-- A lexeme that is no invalid token is the same before a character that is no part of a word. -/
theorem lexeme_before {c d : Char} {cs : List Char} (hspace : isSpace c = false)
    (hvalid : (lexeme c cs).kind ≠ some .invalid) (hd : isWordPart d = false)
    (hskipped : (lexeme c cs).kind = none → d = '\n') (ds : List Char) :
    lexeme c (cs ++ d :: ds) = (lexeme c cs).before (d :: ds) := by
  unfold lexeme at hvalid hskipped ⊢
  simp only [hspace, Bool.false_eq_true, if_false] at hvalid hskipped ⊢
  by_cases hword : isWordStart c = true
  · simp only [if_pos hword, takeWhile_append_cons hd, dropWhile_append_cons hd]
    rfl
  · simp only [if_neg hword] at hvalid hskipped ⊢
    split at hvalid
    · have hcomplete : (stringTail cs).complete = true := by
        by_contra hnot
        rw [if_neg hnot] at hvalid
        exact hvalid rfl
      simp only [stringTail_before hcomplete]
      rfl
    · rename_i cs
      have hfeed : decide (d ≠ '\n') = false := by simp [hskipped rfl]
      have htake := takeWhile_append_cons (p := (· ≠ '\n')) hfeed cs ds
      have hdrop := dropWhile_append_cons (p := (· ≠ '\n')) hfeed cs ds
      simp only [List.cons_append, htake, hdrop]
      rfl
    · rename_i cs
      have hcomplete : (commentTail cs).complete = true := by
        by_contra hnot
        rw [if_neg hnot] at hvalid
        exact hvalid rfl
      simp only [List.cons_append, commentTail_before hcomplete]
      rfl
    · rfl
    · rfl
    · rfl
    · rfl
    · rfl
    · rfl
    · exact absurd rfl hvalid

end Token

end UiCatalog
