import UiCatalog.Proofs.Token.Longest
import UiCatalog.Proofs.Token.Spelling
/-!
# Tokens tile the text

The tokens of a text are its longest matches and its invalid parts, one after the other, and what
is left between them are blanks and comments. This determines the tokens.
-/

namespace UiCatalog.Token

open String (utf8Len)

/-- What is skipped in front of the text `after`. -/
inductive IsSkipped : List Char → List Char → Prop
  | blanks {w after : List Char} (hw : w ∈ blanks) : IsSkipped w after
  /-- The comment ends before the line feed. -/
  | lineComment {body after : List Char} (hbody : ∀ c ∈ body, c ≠ '\n')
      (hafter : ∀ c ∈ after.head?, c = '\n') : IsSkipped ('/' :: '/' :: body) after
  /-- The comment ends at the first closing. -/
  | blockComment {body after : List Char} (hbody : IsBody body) :
      IsSkipped ('/' :: '*' :: (body ++ ['*', '/'])) after

/-- What stands between tokens, in front of the text `after`. -/
inductive Gap : List Char → List Char → Prop
  | nil {after : List Char} : Gap [] after
  | skip {w gap after : List Char} (hw : IsSkipped w (gap ++ after)) (hgap : Gap gap after) :
      Gap (w ++ gap) after

/-- Whether the token that the text `cs` starts with is `w` and of that kind. -/
def StartsWith (kind : TokenKind) (w cs : List Char) : Prop :=
  (w ∈ pattern kind ∧ IsLongest w cs) ∨ (kind = .invalid ∧ IsInvalid w cs)

/-- The tokens, with the gaps around them, are the text. Its first character is at `offset`. -/
inductive Tiles : Nat → List Char → List Token → Prop
  | last {offset : Nat} {gap : List Char} (hgap : Gap gap []) : Tiles offset gap []
  | token {offset : Nat} {gap w rest : List Char} {kind : TokenKind} {ts : List Token}
      (hgap : Gap gap (w ++ rest)) (hw : StartsWith kind w (w ++ rest))
      (hrest : Tiles (offset + utf8Len gap + utf8Len w) rest ts) :
      Tiles offset (gap ++ (w ++ rest)) (⟨kind, String.ofList w, offset + utf8Len gap⟩ :: ts)

/-- The tokens tile the text: none is empty, each is the slice of the text at its place, and they
stand one after the other. -/
structure Tiling (text : String) (ts : List Token) : Prop where
  tiles : Tiles 0 text.toList ts
  nonempty : ∀ t ∈ ts, t.start < t.stop
  slice : ∀ t ∈ ts, ∃ before after,
    text = before ++ t.text ++ after ∧ before.utf8ByteSize = t.start
  order : ts.Pairwise fun t u => t.stop ≤ u.start

section

variable {c : Char} {cs v w after gap : List Char} {kind : TokenKind} {offset : Nat}
  {ts : List Token}

private theorem Fits.ne_nil (h : Fits w) : w ≠ [] := by
  rintro rfl
  obtain ⟨kind, hkind⟩ := h
  have hopen := (lexeme_of_mem hkind (List.nil_prefix : [] <+: ['('])).1
  have hclose := (lexeme_of_mem hkind (List.nil_prefix : [] <+: [')'])).1
  rw [← hopen] at hclose
  exact absurd hclose (by decide)

private theorem StartsWith.ne_nil (h : StartsWith kind w cs) : w ≠ [] := by
  rcases h with ⟨-, hlongest⟩ | ⟨-, hinvalid⟩
  · exact hlongest.fits.ne_nil
  · exact hinvalid.nonempty

/-! ### The scan tiles the text -/

private theorem IsLongest.isSkipped (h : IsLongest w (w ++ after)) (hw : w ∈ patternOf none) :
    IsSkipped w after := by
  rcases mem_skipped_iff.mp hw with hblanks | hline | hblock
  · exact .blanks hblanks
  · obtain ⟨body, hbody, rfl⟩ := mem_lineComment_iff.mp hline
    refine .lineComment hbody fun d hd => ?_
    by_contra hfeed
    obtain ⟨ds, rfl⟩ := List.head?_eq_some_iff.mp hd
    have hmore : ∀ c ∈ body ++ [d], c ≠ '\n' :=
      List.forall_mem_append.mpr ⟨hbody, by simpa using hfeed⟩
    have hfits : Fits ('/' :: '/' :: (body ++ [d])) :=
      ⟨none, mem_skipped_iff.mpr (Or.inr (Or.inl (mem_lineComment_iff.mpr ⟨_, hmore, rfl⟩)))⟩
    have hlonger := h.longest _ ⟨ds, by simp⟩ hfits
    simp at hlonger
  · obtain ⟨body, hbody, rfl⟩ := mem_blockComment_iff.mp hblock
    exact .blockComment hbody

private theorem lexeme_isSkipped (hkind : (lexeme c cs).kind = none) :
    IsSkipped (lexeme c cs).text (lexeme c cs).rest := by
  have hvalid : (lexeme c cs).kind ≠ some .invalid := by simp [hkind]
  obtain ⟨hmem, hlongest⟩ := lexeme_isLongest hvalid
  rw [hkind] at hmem
  rw [← lexeme_append c cs] at hlongest
  exact hlongest.isSkipped hmem

private theorem lexeme_startsWith (hkind : (lexeme c cs).kind = some kind) :
    StartsWith kind (lexeme c cs).text (c :: cs) := by
  by_cases hvalid : kind = .invalid
  · subst hvalid
    exact Or.inr ⟨rfl, lexeme_isInvalid hkind⟩
  · have hne : (lexeme c cs).kind ≠ some .invalid := by simpa [hkind] using hvalid
    obtain ⟨hmem, hlongest⟩ := lexeme_isLongest hne
    rw [hkind] at hmem
    exact Or.inl ⟨hmem, hlongest⟩

private theorem Tiles.skip (hw : IsSkipped w cs) (h : Tiles (offset + utf8Len w) cs ts) :
    Tiles offset (w ++ cs) ts := by
  cases h with
  | last hgap =>
    refine .last (.skip ?_ hgap)
    rwa [List.append_nil]
  | @token _ gap v rest kind ts hgap hv hrest =>
    have hoffset : offset + utf8Len w + utf8Len gap = offset + utf8Len (w ++ gap) := by
      rw [String.utf8Len_append, Nat.add_assoc]
    rw [hoffset] at hrest ⊢
    rw [← List.append_assoc]
    exact .token (.skip hw hgap) hv hrest

private theorem tiles_scanFrom (offset : Nat) (cs : List Char) :
    Tiles offset cs (scanFrom offset cs) := by
  induction offset, cs using scanFrom_induction with
  | hnil offset =>
    rw [scanFrom]
    exact .last .nil
  | hcons offset c cs ih =>
    rw [scanFrom_cons, ofLexeme]
    cases hkind : (lexeme c cs).kind with
    | none =>
      have htiles := ih.skip (lexeme_isSkipped hkind)
      rwa [lexeme_append] at htiles
    | some kind =>
      have hstarts := lexeme_startsWith hkind
      rw [← lexeme_append c cs] at hstarts
      have htiles := Tiles.token .nil hstarts ih
      rwa [lexeme_append] at htiles

/-! ### Nothing else does -/

private theorem scanFrom_skip (h : lexeme c (w ++ after) = ⟨none, c :: w, after⟩) (offset : Nat) :
    scanFrom offset (c :: w ++ after) = scanFrom (offset + utf8Len (c :: w)) after := by
  rw [List.cons_append, scanFrom_cons, h]
  rfl

private theorem IsSkipped.scanFrom (h : IsSkipped w after) (offset : Nat) :
    scanFrom offset (w ++ after) = scanFrom (offset + utf8Len w) after := by
  cases h with
  | blanks hw =>
    have hall : (String.ofList w).toList.all isSpace = true := by
      rw [String.toList_ofList, List.all_eq_true]
      exact (mem_blanks_iff.mp hw).2
    obtain ⟨_, rfl, hscan⟩ := spells_blank hall offset after
    rwa [String.toList_ofList, String.utf8ByteSize_ofList] at hscan
  | @lineComment body _ hbody hafter =>
    refine scanFrom_skip ?_ offset
    have hpos : ∀ c ∈ body, decide (c ≠ '\n') = true := by simpa using hbody
    rw [List.cons_append, lexeme_line, List.takeWhile_append_of_pos hpos,
      List.dropWhile_append_of_pos hpos]
    cases after with
    | nil => simp
    | cons d ds =>
      obtain rfl : d = '\n' := hafter d rfl
      simp
  | @blockComment body _ hbody =>
    refine scanFrom_skip ?_ offset
    have htail : commentTail (body ++ (['*', '/'] ++ after)) = _ := commentTail_body hbody after
    rw [List.cons_append, List.append_assoc, lexeme_open, htail]
    rfl

private theorem Gap.scanFrom (h : Gap gap after) (offset : Nat) :
    scanFrom offset (gap ++ after) = scanFrom (offset + utf8Len gap) after := by
  induction h generalizing offset with
  | nil => rfl
  | skip hw _ ih =>
    rw [List.append_assoc, hw.scanFrom, ih, String.utf8Len_append, Nat.add_assoc]

private theorem IsInvalid.length_le (hv : IsInvalid v cs) (hw : IsInvalid w cs) :
    v.length ≤ w.length := by
  rcases hv.goesOn with hgoes | hone
  · exact hw.longest v hv.front hgoes
  · have hpos := List.length_pos_iff.mpr hw.nonempty
    omega

private theorem StartsWith.lexeme_text (h : StartsWith kind w (c :: cs)) :
    (lexeme c cs).kind = some kind ∧ (lexeme c cs).text = w := by
  rcases h with ⟨hmem, hlongest⟩ | ⟨rfl, hinvalid⟩
  · have hfits : w ∈ patternOf (some kind) := hmem
    obtain ⟨hkind, hfront⟩ := lexeme_of_mem hfits hlongest.front
    have hvalid : (lexeme c cs).kind ≠ some .invalid := by
      rw [hkind]
      rintro ⟨⟩
      exact Language.notMem_zero w hmem
    have hlexeme := (lexeme_isLongest hvalid).2
    have hle := hlongest.longest _ hlexeme.front hlexeme.fits
    exact ⟨hkind, (hfront.eq_of_length_le hle).symm⟩
  · have hkind : (lexeme c cs).kind = some .invalid := by
      by_contra hvalid
      have hlexeme := (lexeme_isLongest hvalid).2
      exact hinvalid.nothing _ hlexeme.front hlexeme.fits
    have hlexeme := lexeme_isInvalid hkind
    have hle := hlexeme.length_le hinvalid
    have hfront := List.prefix_of_prefix_length_le hlexeme.front hinvalid.front hle
    exact ⟨hkind, hfront.eq_of_length_le (hinvalid.length_le hlexeme)⟩

private theorem Tiles.eq_scanFrom (h : Tiles offset cs ts) : ts = scanFrom offset cs := by
  induction h with
  | @last offset gap hgap =>
    rw [← List.append_nil gap, hgap.scanFrom, scanFrom]
  | @token offset gap w rest kind ts hgap hw _ ih =>
    obtain ⟨c, cs, rfl⟩ := List.exists_cons_of_ne_nil hw.ne_nil
    rw [List.cons_append] at hw
    obtain ⟨hkind, htext⟩ := hw.lexeme_text
    have hrest : (lexeme c (cs ++ rest)).rest = rest := by
      have happend := lexeme_append c (cs ++ rest)
      rw [htext] at happend
      exact List.append_cancel_left happend
    rw [hgap.scanFrom, List.cons_append, scanFrom_cons, ofLexeme, hkind, htext, hrest, ih]
    rfl

theorem tiles_iff : Tiles offset cs ts ↔ ts = scanFrom offset cs :=
  ⟨Tiles.eq_scanFrom, fun h => h ▸ tiles_scanFrom offset cs⟩

/-! ### Ranges -/

private theorem Tiles.slice {t : Token} (h : Tiles offset cs ts) (ht : t ∈ ts) :
    ∃ before after, cs = before ++ (t.text.toList ++ after) ∧
      t.start = offset + utf8Len before := by
  induction h with
  | last => exact absurd ht List.not_mem_nil
  | @token offset gap w rest kind ts hgap hw _ ih =>
    rcases List.mem_cons.mp ht with rfl | hlater
    · exact ⟨gap, rest, by rw [String.toList_ofList], rfl⟩
    · obtain ⟨before, after, rfl, hstart⟩ := ih hlater
      refine ⟨gap ++ w ++ before, after, by simp, ?_⟩
      rw [hstart, String.utf8Len_append, String.utf8Len_append]
      omega

theorem Tiles.nonempty {t : Token} (h : Tiles offset cs ts) (ht : t ∈ ts) : t.start < t.stop := by
  induction h with
  | last => exact absurd ht List.not_mem_nil
  | @token offset gap w rest kind ts hgap hw _ ih =>
    rcases List.mem_cons.mp ht with rfl | hlater
    · have hpos : 0 < (String.ofList w).utf8ByteSize := by
        rw [Nat.pos_iff_ne_zero, ne_eq, String.utf8ByteSize_eq_zero_iff]
        simpa using hw.ne_nil
      exact Nat.lt_add_of_pos_right hpos
    · exact ih hlater

theorem Tiles.order (h : Tiles offset cs ts) : ts.Pairwise fun t u => t.stop ≤ u.start := by
  induction h with
  | last => exact List.Pairwise.nil
  | @token offset gap w rest kind ts hgap hw hrest ih =>
    refine List.pairwise_cons.mpr ⟨fun u hu => ?_, ih⟩
    obtain ⟨before, after, -, hstart⟩ := hrest.slice hu
    rw [hstart, stop, String.utf8ByteSize_ofList]
    exact Nat.le_add_right _ _

/-- The tokens of a text tile it with the longest matches. -/
theorem scan_tiles (text : String) : Tiling text (scan text) := by
  have htiles : Tiles 0 text.toList (scan text) := tiles_iff.mpr rfl
  refine ⟨htiles, fun t ht => htiles.nonempty ht, fun t ht => ?_, htiles.order⟩
  obtain ⟨before, after, htext, hstart⟩ := htiles.slice ht
  refine ⟨String.ofList before, String.ofList after, ?_, ?_⟩
  · rw [← String.toList_inj, String.toList_append, String.toList_append, String.toList_ofList,
      String.toList_ofList, List.append_assoc, htext]
  · rw [String.utf8ByteSize_ofList, hstart, Nat.zero_add]

end

end UiCatalog.Token
