import Mathlib.Data.List.TakeWhile
import UiCatalog.Proofs.Token.Pattern
/-!
# Longest matches

A lexeme is the longest front of the text that fits a pattern. If none does, it is an invalid token
that runs as far as something could still fit.
-/

namespace UiCatalog.Token

open scoped Computability

/-- The words of a kind of token, or of what is skipped. -/
def patternOf : Option TokenKind → Language Char
  | none => blanks + lineComment + blockComment
  | some kind => pattern kind

/-- Whether the word fits some pattern. -/
def Fits (w : List Char) : Prop :=
  ∃ kind, w ∈ patternOf kind

/-- Whether more characters after the word could make it fit. -/
def CanGoOn (w : List Char) : Prop :=
  ∃ u, Fits (w ++ u)

/-- Nothing at the front of the text that fits is longer than the word. -/
structure IsLongest (w cs : List Char) : Prop where
  fits : Fits w
  front : w <+: cs
  longest : ∀ v, v <+: cs → Fits v → v.length ≤ w.length

/-- The word ends where nothing could go on, but it has at least one character. -/
structure IsStuck (w cs : List Char) : Prop where
  nonempty : w ≠ []
  goesOn : CanGoOn w ∨ w.length = 1
  longest : ∀ v, v <+: cs → CanGoOn v → v.length ≤ w.length

/-- Nothing at the front of the text fits, and the word runs to where nothing could go on. -/
structure IsInvalid (w cs : List Char) : Prop extends IsStuck w cs where
  front : w <+: cs
  nothing : ∀ v, v <+: cs → ¬Fits v

variable {c : Char} {cs v w : List Char}

theorem mem_skipped_iff :
    w ∈ patternOf none ↔ w ∈ blanks ∨ w ∈ lineComment ∨ w ∈ blockComment := by
  rw [patternOf, Language.mem_add, Language.mem_add, or_assoc]

/-- The characters other than those of blanks and words with which something can start. -/
def marks : List Char :=
  ['"', '/', '(', ')', '{', '}', ';', ',']

private theorem lexeme_other (hspace : ¬isSpace c = true) (hword : ¬isWordStart c = true)
    (hc : c ∉ marks) : lexeme c cs = ⟨some .invalid, [c], cs⟩ := by
  unfold lexeme
  rw [if_neg hspace, if_neg hword]
  split <;> first | rfl | exact absurd (by decide) hc

private theorem lexeme_quote (cs : List Char) :
    lexeme '"' cs = ⟨some (if (stringTail cs).complete then .string else .invalid),
      '"' :: (stringTail cs).taken, (stringTail cs).rest⟩ :=
  rfl

theorem lexeme_line (cs : List Char) :
    lexeme '/' ('/' :: cs) =
      ⟨none, '/' :: '/' :: cs.takeWhile (· ≠ '\n'), cs.dropWhile (· ≠ '\n')⟩ :=
  rfl

theorem lexeme_open (cs : List Char) :
    lexeme '/' ('*' :: cs) = ⟨if (commentTail cs).complete then none else some .invalid,
      '/' :: '*' :: (commentTail cs).taken, (commentTail cs).rest⟩ :=
  rfl

private theorem lexeme_slash (hline : cs.head? ≠ some '/') (hblock : cs.head? ≠ some '*') :
    lexeme '/' cs = ⟨some .invalid, ['/'], cs⟩ := by
  unfold lexeme
  rw [if_neg (by decide), if_neg (by decide)]
  split <;> first | rfl | contradiction

private theorem prefix_takeWhile {p : Char → Bool} (hv : ∀ d ∈ v, p d = true)
    (hfront : v <+: cs) : v <+: cs.takeWhile p := by
  obtain ⟨ds, rfl⟩ := hfront
  exact ⟨_, (List.takeWhile_append_of_pos hv).symm⟩

private theorem lexeme_of_mem_skipped (hv : v ∈ patternOf none) (hfront : v <+: c :: cs) :
    (lexeme c cs).kind = none ∧ v <+: (lexeme c cs).text := by
  rw [mem_skipped_iff, mem_blanks_iff, mem_lineComment_iff, mem_blockComment_iff] at hv
  rcases hv with ⟨hne, hspace⟩ | ⟨ds, hline, rfl⟩ | ⟨body, hbody, rfl⟩
  · obtain ⟨d, ds, rfl⟩ := List.exists_cons_of_ne_nil hne
    obtain ⟨rfl, hds⟩ := List.cons_prefix_cons.mp hfront
    obtain ⟨hd, hspace⟩ := List.forall_mem_cons.mp hspace
    rw [lexeme_space hd]
    exact ⟨rfl, List.cons_prefix_cons.mpr ⟨rfl, prefix_takeWhile hspace hds⟩⟩
  · obtain ⟨rfl, es, rfl⟩ := List.cons_prefix_cons.mp hfront
    have htaken : ds <+: (ds ++ es).takeWhile (· ≠ '\n') :=
      prefix_takeWhile (by simpa using hline) (List.prefix_append ds es)
    exact ⟨rfl, List.cons_prefix_cons.mpr ⟨rfl, List.cons_prefix_cons.mpr ⟨rfl, htaken⟩⟩⟩
  · obtain ⟨rfl, es, rfl⟩ := List.cons_prefix_cons.mp hfront
    have htail : commentTail (body ++ ['*', '/'] ++ es) = ⟨true, body ++ ['*', '/'], es⟩ := by
      rw [List.append_assoc]
      exact commentTail_body hbody es
    rw [List.cons_append, lexeme_open, htail]
    exact ⟨rfl, List.prefix_rfl⟩

/-- What fits at the front of a text is of the kind of the lexeme and no longer. -/
theorem lexeme_of_mem {kind : Option TokenKind} (hv : v ∈ patternOf kind)
    (hfront : v <+: c :: cs) : (lexeme c cs).kind = kind ∧ v <+: (lexeme c cs).text := by
  cases kind with
  | none => exact lexeme_of_mem_skipped hv hfront
  | some kind =>
    cases kind with
    | identifier =>
      obtain ⟨d, ds, hd, hparts, rfl⟩ := mem_identifier_iff.mp hv
      obtain ⟨rfl, hds⟩ := List.cons_prefix_cons.mp hfront
      rw [lexeme_word hd]
      exact ⟨rfl, List.cons_prefix_cons.mpr ⟨rfl, prefix_takeWhile hparts hds⟩⟩
    | string =>
      obtain ⟨u, hu, rfl⟩ := mem_string_iff.mp hv
      obtain ⟨rfl, es, rfl⟩ := List.cons_prefix_cons.mp hfront
      have htail : stringTail (u ++ ['"'] ++ es) = ⟨true, u ++ ['"'], es⟩ := by
        rw [List.append_assoc, stringTail_parts hu]
        rfl
      rw [lexeme_quote, htail]
      exact ⟨rfl, List.prefix_rfl⟩
    | invalid => exact absurd hv (Language.notMem_zero v)
    | openParen | closeParen | openBrace | closeBrace | semicolon | comma =>
      obtain rfl : v = _ := hv
      obtain ⟨rfl, -⟩ := List.cons_prefix_cons.mp hfront
      exact ⟨rfl, List.prefix_rfl⟩

private theorem Fits.kind_ne (h : Fits (c :: w)) : (lexeme c w).kind ≠ some .invalid := by
  obtain ⟨kind, hw⟩ := h
  obtain ⟨hkind, -⟩ := lexeme_of_mem hw List.prefix_rfl
  rw [hkind]
  rintro rfl
  exact Language.notMem_zero _ hw

private theorem CanGoOn.exists_kind_ne (h : CanGoOn (c :: w)) :
    ∃ u, (lexeme c (w ++ u)).kind ≠ some .invalid := by
  obtain ⟨u, hfits⟩ := h
  exact ⟨u, Fits.kind_ne hfits⟩

private theorem CanGoOn.length_le {u ds : List Char} (hgoes : CanGoOn v) (hu : u ∈ stringPart∗)
    (hds : ∀ c ∈ ds.head?, c = '\n') (hv : v <+: '"' :: (u ++ '\\' :: ds)) :
    v.length ≤ ('"' :: (u ++ ['\\'])).length := by
  by_contra hlonger
  obtain ⟨es, rfl⟩ : ∃ es, ds = '\n' :: es := by
    cases ds with
    | nil => exact absurd hv.length_le hlonger
    | cons d es => exact ⟨es, by rw [hds d rfl]⟩
  have hfeed : '"' :: (u ++ ['\\', '\n']) <+: '"' :: (u ++ '\\' :: '\n' :: es) := ⟨es, by simp⟩
  have hlength : ('"' :: (u ++ ['\\', '\n'])).length ≤ v.length := by
    simp only [List.length_cons, List.length_append, List.length_nil] at hlonger ⊢
    omega
  obtain ⟨z, rfl⟩ := List.prefix_of_prefix_length_le hfeed hv hlength
  rw [List.cons_append] at hgoes
  obtain ⟨w, hkind⟩ := hgoes.exists_kind_ne
  rw [List.append_assoc, List.append_assoc, lexeme_quote, stringTail_parts hu] at hkind
  exact hkind rfl

def Lexeme.FitsOrStuck (l : Lexeme) (cs : List Char) : Prop :=
  l.text ∈ patternOf l.kind ∨ (l.kind = some .invalid ∧ IsStuck l.text cs)

private theorem fitsOrStuck_quote (cs : List Char) : (lexeme '"' cs).FitsOrStuck ('"' :: cs) := by
  obtain ⟨u, hu, ds, r, hend, rfl, hr⟩ := stringTail_cases cs
  rw [lexeme_quote, hr]
  have hclosed {v : List Char} (hv : v ∈ stringPart∗) : Fits ('"' :: (v ++ ['"'])) :=
    ⟨some .string, mem_string_iff.mpr ⟨v, hv, rfl⟩⟩
  cases hend with
  | quote ds => exact Or.inl (mem_string_iff.mpr ⟨u, hu, rfl⟩)
  | missing =>
    refine Or.inr ⟨rfl, List.cons_ne_nil _ _, Or.inl ⟨['"'], ?_⟩, fun v hv _ => hv.length_le⟩
    simpa [Run.after] using hclosed hu
  | @backslash ds hds =>
    refine Or.inr ⟨rfl, List.cons_ne_nil _ _, Or.inl ⟨['"', '"'], ?_⟩, ?_⟩
    · have hle : stringPart∗ * stringPart ≤ stringPart∗ := kstar_mul_le_kstar
      have hpart : ['\\', '"'] ∈ stringPart :=
        Or.inr ⟨['\\'], rfl, ['"'], ⟨'"', by decide, rfl⟩, rfl⟩
      simpa [Run.after] using hclosed (hle (Language.append_mem_mul hu hpart))
    · exact fun v hv hgoes => hgoes.length_le hu hds hv

private theorem fitsOrStuck_open (cs : List Char) :
    (lexeme '/' ('*' :: cs)).FitsOrStuck ('/' :: '*' :: cs) := by
  rw [lexeme_open]
  rcases commentTail_cases cs with ⟨hbody, htail⟩ | ⟨body, ds, hbody, rfl⟩
  · rw [htail]
    have hclosed : Fits ('/' :: '*' :: (cs ++ ['*', '/'])) :=
      ⟨none, mem_skipped_iff.mpr (Or.inr (Or.inr (mem_blockComment_iff.mpr ⟨cs, hbody, rfl⟩)))⟩
    exact Or.inr ⟨rfl, List.cons_ne_nil _ _, Or.inl ⟨_, hclosed⟩, fun v hv _ => hv.length_le⟩
  · rw [commentTail_body hbody]
    have hblock := mem_blockComment_iff.mpr ⟨body, hbody, rfl⟩
    exact Or.inl (mem_skipped_iff.mpr (Or.inr (Or.inr hblock)))

private theorem fitsOrStuck_slash (cs : List Char) : (lexeme '/' cs).FitsOrStuck ('/' :: cs) := by
  by_cases hline : cs.head? = some '/'
  · obtain ⟨ds, rfl⟩ := List.head?_eq_some_iff.mp hline
    have htaken : ∀ d ∈ ds.takeWhile (· ≠ '\n'), d ≠ '\n' := by
      intro d hd
      simpa using List.mem_takeWhile_imp hd
    have hline := mem_lineComment_iff.mpr ⟨_, htaken, rfl⟩
    exact Or.inl (mem_skipped_iff.mpr (Or.inr (Or.inl hline)))
  by_cases hblock : cs.head? = some '*'
  · obtain ⟨ds, rfl⟩ := List.head?_eq_some_iff.mp hblock
    exact fitsOrStuck_open ds
  · rw [lexeme_slash hline hblock]
    refine Or.inr ⟨rfl, List.cons_ne_nil _ _, Or.inr rfl, fun v hv hgoes => ?_⟩
    match v, hv with
    | [], _ => exact Nat.zero_le 1
    | [_], _ => exact Nat.le_refl 1
    | _ :: d :: ds, hv =>
      obtain ⟨rfl, es, rfl⟩ := List.cons_prefix_cons.mp hv
      obtain ⟨u, hkind⟩ := hgoes.exists_kind_ne
      have hlexeme : lexeme '/' (d :: ds ++ u) = _ := lexeme_slash hline hblock
      rw [hlexeme] at hkind
      exact absurd rfl hkind

private theorem lexeme_fitsOrStuck (c : Char) (cs : List Char) :
    (lexeme c cs).FitsOrStuck (c :: cs) := by
  by_cases hspace : isSpace c = true
  · rw [lexeme_space hspace]
    have hall : ∀ d ∈ c :: cs.takeWhile isSpace, isSpace d = true :=
      List.forall_mem_cons.mpr ⟨hspace, fun _ => List.mem_takeWhile_imp⟩
    have hblanks := mem_blanks_iff.mpr ⟨List.cons_ne_nil _ _, hall⟩
    exact Or.inl (mem_skipped_iff.mpr (Or.inl hblanks))
  by_cases hword : isWordStart c = true
  · rw [lexeme_word hword]
    have hparts : ∀ d ∈ cs.takeWhile isWordPart, isWordPart d = true :=
      fun _ => List.mem_takeWhile_imp
    exact Or.inl (mem_identifier_iff.mpr ⟨c, _, hword, hparts, rfl⟩)
  by_cases hmark : c ∈ marks
  · simp only [marks, List.mem_cons, List.not_mem_nil, or_false] at hmark
    rcases hmark with rfl | rfl | rfl | rfl | rfl | rfl | rfl | rfl
    · exact fitsOrStuck_quote cs
    · exact fitsOrStuck_slash cs
    all_goals exact Or.inl rfl
  · rw [lexeme_other hspace hword hmark]
    refine Or.inr ⟨rfl, List.cons_ne_nil _ _, Or.inr rfl, fun v hv hgoes => ?_⟩
    cases v with
    | nil => exact Nat.zero_le 1
    | cons d ds =>
      obtain ⟨rfl, -⟩ := List.cons_prefix_cons.mp hv
      obtain ⟨u, hkind⟩ := hgoes.exists_kind_ne
      rw [lexeme_other hspace hword hmark] at hkind
      exact absurd rfl hkind

/-- A lexeme that is no invalid token fits its pattern, and nothing longer fits any. -/
theorem lexeme_isLongest (hvalid : (lexeme c cs).kind ≠ some .invalid) :
    (lexeme c cs).text ∈ patternOf (lexeme c cs).kind ∧ IsLongest (lexeme c cs).text (c :: cs) := by
  have hmem : (lexeme c cs).text ∈ patternOf (lexeme c cs).kind :=
    (lexeme_fitsOrStuck c cs).resolve_right fun h => hvalid h.1
  refine ⟨hmem, ⟨_, hmem⟩, ⟨_, lexeme_append c cs⟩, ?_⟩
  rintro v hv ⟨kind, hfits⟩
  exact (lexeme_of_mem hfits hv).2.length_le

theorem lexeme_isInvalid (hinvalid : (lexeme c cs).kind = some .invalid) :
    IsInvalid (lexeme c cs).text (c :: cs) := by
  have hstuck : IsStuck (lexeme c cs).text (c :: cs) := by
    rcases lexeme_fitsOrStuck c cs with hmem | ⟨-, hstuck⟩
    · rw [hinvalid] at hmem
      exact absurd hmem (Language.notMem_zero _)
    · exact hstuck
  refine ⟨hstuck, ⟨_, lexeme_append c cs⟩, ?_⟩
  rintro v hv ⟨kind, hfits⟩
  have hkind := (lexeme_of_mem hfits hv).1
  rw [hinvalid] at hkind
  subst hkind
  exact Language.notMem_zero _ hfits

end UiCatalog.Token
