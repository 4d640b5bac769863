import Mathlib.Computability.Language
import UiCatalog.Proofs.Token.Lexeme
/-!
# The patterns of tokens

What a token looks like, and what may stand between tokens, is said by regular expressions. The
scan of a string literal goes as far as the parts of one do, and the block comments are those that
end at the first closing.
-/

namespace UiCatalog

open scoped Computability

namespace Token

def single (p : Char → Prop) : Language Char :=
  {w | ∃ c, p c ∧ w = [c]}

def runOf (p : Char → Prop) : Language Char :=
  single p * (single p)∗

def spelled (s : String) : Language Char :=
  {s.toList}

/-- Letters of words are those of the alphabet, large and small, and the underscore. -/
def IsLetter (c : Char) : Prop :=
  ('a' ≤ c ∧ c ≤ 'z') ∨ ('A' ≤ c ∧ c ≤ 'Z') ∨ c = '_'

def blanks : Language Char :=
  runOf fun c => c = ' ' ∨ c = '\t' ∨ c = '\r' ∨ c = '\n' ∨ c = '\x0c'

def lineComment : Language Char :=
  spelled "//" * (single (· ≠ '\n'))∗

def stars : Language Char :=
  runOf (· = '*')

/-- Inside a block comment: something else than a star, or stars and something after them that
does not close the comment. -/
def commentPart : Language Char :=
  single (· ≠ '*') + stars * single fun c => c ≠ '*' ∧ c ≠ '/'

def blockComment : Language Char :=
  spelled "/*" * (commentPart∗ * (stars * spelled "/"))

/-- Inside a string literal: an unmarked character, or a backslash and any character after it on
the same line. -/
def stringPart : Language Char :=
  single (fun c => c ≠ '"' ∧ c ≠ '\\') + spelled "\\" * single (· ≠ '\n')

/-- The words of a kind of token. What is invalid has no pattern. -/
def pattern : TokenKind → Language Char
  | .identifier => single IsLetter * (single fun c => IsLetter c ∨ ('0' ≤ c ∧ c ≤ '9'))∗
  | .string => spelled "\"" * (stringPart∗ * spelled "\"")
  | .openParen => spelled "("
  | .closeParen => spelled ")"
  | .openBrace => spelled "\x7b"
  | .closeBrace => spelled "\x7d"
  | .semicolon => spelled ";"
  | .comma => spelled ","
  | .invalid => 0

section

variable {p : Char → Prop} {v w : List Char} {L : Language Char}

private theorem mem_single_mul_iff : w ∈ single p * L ↔ ∃ c cs, p c ∧ cs ∈ L ∧ w = c :: cs := by
  rw [Language.mem_mul]
  constructor
  · rintro ⟨_, ⟨c, hc, rfl⟩, cs, hcs, rfl⟩
    exact ⟨c, cs, hc, hcs, rfl⟩
  · rintro ⟨c, cs, hc, hcs, rfl⟩
    exact ⟨[c], ⟨c, hc, rfl⟩, cs, hcs, rfl⟩

private theorem mem_spelled_mul_iff {s : String} :
    w ∈ spelled s * L ↔ ∃ v ∈ L, w = s.toList ++ v := by
  rw [Language.mem_mul]
  constructor
  · rintro ⟨_, rfl, v, hv, rfl⟩
    exact ⟨v, hv, rfl⟩
  · rintro ⟨v, hv, rfl⟩
    exact ⟨_, rfl, v, hv, rfl⟩

private theorem mem_mul_spelled_iff {s : String} :
    w ∈ L * spelled s ↔ ∃ v ∈ L, w = v ++ s.toList := by
  rw [Language.mem_mul]
  constructor
  · rintro ⟨v, hv, _, rfl, rfl⟩
    exact ⟨v, hv, rfl⟩
  · rintro ⟨v, hv, rfl⟩
    exact ⟨v, hv, _, rfl, rfl⟩

private theorem append_mem_kstar (hv : v ∈ L) (hw : w ∈ L∗) : v ++ w ∈ L∗ := by
  have hle : L * L∗ ≤ L∗ := mul_kstar_le_kstar
  exact hle (Language.append_mem_mul hv hw)

private theorem kstar_induction {P : List Char → Prop} (hnil : P [])
    (happend : ∀ v ∈ L, ∀ u ∈ L∗, P u → P (v ++ u)) (hw : w ∈ L∗) : P w := by
  obtain ⟨words, rfl, hwords⟩ := Language.mem_kstar.mp hw
  induction words with
  | nil => exact hnil
  | cons v words ih =>
    obtain ⟨hv, hwords⟩ := List.forall_mem_cons.mp hwords
    have hrest : words.flatten ∈ L∗ := Language.join_mem_kstar hwords
    exact happend v hv _ hrest (ih hwords hrest)

private theorem mem_single_kstar_iff : w ∈ (single p)∗ ↔ ∀ c ∈ w, p c := by
  constructor
  · refine kstar_induction (P := fun w => ∀ c ∈ w, p c) (List.forall_mem_nil p) ?_
    rintro _ ⟨c, hc, rfl⟩ u _ hu
    exact List.forall_mem_cons.mpr ⟨hc, hu⟩
  · intro hw
    induction w with
    | nil => exact Language.nil_mem_kstar _
    | cons c cs ih =>
      obtain ⟨hc, hcs⟩ := List.forall_mem_cons.mp hw
      have hfirst : [c] ∈ single p := ⟨c, hc, rfl⟩
      exact append_mem_kstar hfirst (ih hcs)

private theorem mem_runOf_iff : w ∈ runOf p ↔ w ≠ [] ∧ ∀ c ∈ w, p c := by
  rw [runOf, mem_single_mul_iff]
  constructor
  · rintro ⟨c, cs, hc, hcs, rfl⟩
    exact ⟨List.cons_ne_nil c cs, List.forall_mem_cons.mpr ⟨hc, mem_single_kstar_iff.mp hcs⟩⟩
  · rintro ⟨hne, hw⟩
    obtain ⟨c, cs, rfl⟩ := List.exists_cons_of_ne_nil hne
    obtain ⟨hc, hcs⟩ := List.forall_mem_cons.mp hw
    exact ⟨c, cs, hc, mem_single_kstar_iff.mpr hcs, rfl⟩

end

variable {c : Char} {cs w : List Char}

private theorem isSpace_iff :
    isSpace c = true ↔ c = ' ' ∨ c = '\t' ∨ c = '\r' ∨ c = '\n' ∨ c = '\x0c' := by
  simp [isSpace, or_assoc]

private theorem between_iff {a b : Char} :
    (decide (c.val ≥ a.val) && decide (c.val ≤ b.val)) = true ↔ a ≤ c ∧ c ≤ b := by
  rw [Bool.and_eq_true, decide_eq_true_iff, decide_eq_true_iff]
  exact Iff.rfl

private theorem isWordStart_iff : isWordStart c = true ↔ IsLetter c := by
  have hupper : c.isUpper = true ↔ 'A' ≤ c ∧ c ≤ 'Z' := decide_eq_true_iff
  have hlower : c.isLower = true ↔ 'a' ≤ c ∧ c ≤ 'z' := between_iff
  have halpha : c.isAlpha = true ↔ c.isUpper = true ∨ c.isLower = true := Bool.or_eq_true_iff
  rw [isWordStart, Bool.or_eq_true, halpha, hupper, hlower, beq_iff_eq, or_assoc, or_left_comm]
  rfl

private theorem isWordPart_iff : isWordPart c = true ↔ IsLetter c ∨ ('0' ≤ c ∧ c ≤ '9') := by
  have hdigit : c.isDigit = true ↔ '0' ≤ c ∧ c ≤ '9' := between_iff
  have halnum : c.isAlphanum = true ↔ c.isAlpha = true ∨ c.isDigit = true := Bool.or_eq_true_iff
  rw [isWordPart, Bool.or_eq_true, halnum, or_right_comm, hdigit, ← isWordStart_iff, isWordStart,
    Bool.or_eq_true]

theorem mem_blanks_iff : w ∈ blanks ↔ w ≠ [] ∧ ∀ c ∈ w, isSpace c = true := by
  simp only [blanks, mem_runOf_iff, isSpace_iff]

theorem mem_lineComment_iff :
    w ∈ lineComment ↔ ∃ cs, (∀ c ∈ cs, c ≠ '\n') ∧ w = '/' :: '/' :: cs := by
  simp only [lineComment, mem_spelled_mul_iff, mem_single_kstar_iff]
  rfl

theorem mem_identifier_iff : w ∈ pattern .identifier ↔
    ∃ c cs, isWordStart c = true ∧ (∀ d ∈ cs, isWordPart d = true) ∧ w = c :: cs := by
  simp only [pattern, mem_single_mul_iff, mem_single_kstar_iff, isWordStart_iff, isWordPart_iff]

theorem mem_string_iff :
    w ∈ pattern .string ↔ ∃ u ∈ stringPart∗, w = '"' :: (u ++ ['"']) := by
  simp only [pattern, mem_spelled_mul_iff, mem_mul_spelled_iff]
  constructor
  · rintro ⟨_, ⟨u, hu, rfl⟩, rfl⟩
    exact ⟨u, hu, rfl⟩
  · rintro ⟨u, hu, rfl⟩
    exact ⟨_, ⟨u, hu, rfl⟩, rfl⟩

/-! ### String literals -/

def Run.after (r : Run) (u : List Char) : Run :=
  { r with taken := u ++ r.taken }

theorem stringTail_parts {u : List Char} (hu : u ∈ stringPart∗) (cs : List Char) :
    stringTail (u ++ cs) = (stringTail cs).after u := by
  refine kstar_induction (P := fun u => stringTail (u ++ cs) = (stringTail cs).after u) rfl ?_ hu
  intro v hv u _ hrest
  rw [stringPart, Language.mem_add, mem_spelled_mul_iff] at hv
  rcases hv with ⟨c, ⟨hquote, hslash⟩, rfl⟩ | ⟨_, ⟨c, hfeed, rfl⟩, rfl⟩
  · exact (stringTail_cons hquote hslash (u ++ cs)).trans (by rw [hrest]; rfl)
  · exact (stringTail_escape hfeed (u ++ cs)).trans (by rw [hrest]; rfl)

/-- Where the scan of a string literal ends. -/
inductive StringEnd : List Char → Run → Prop
  | quote (cs : List Char) : StringEnd ('"' :: cs) ⟨true, ['"'], cs⟩
  | missing : StringEnd [] ⟨false, [], []⟩
  /-- There is no character on the line that the backslash could take. -/
  | backslash {cs : List Char} (hcs : ∀ c ∈ cs.head?, c = '\n') :
      StringEnd ('\\' :: cs) ⟨false, ['\\'], cs⟩

/-- A string literal is scanned as far as its parts go. -/
theorem stringTail_cases (cs : List Char) :
    ∃ u ∈ stringPart∗, ∃ ds r, StringEnd ds r ∧ cs = u ++ ds ∧ stringTail cs = r.after u := by
  have hnil := Language.nil_mem_kstar stringPart
  induction cs using stringTail_induction with
  | nil => exact ⟨[], hnil, _, _, .missing, rfl, rfl⟩
  | quote cs => exact ⟨[], hnil, _, _, .quote cs, rfl, rfl⟩
  | slash => exact ⟨[], hnil, _, _, .backslash (by simp), rfl, rfl⟩
  | feed cs => exact ⟨[], hnil, _, _, .backslash (by simp), rfl, rfl⟩
  | escape c cs hfeed ih =>
    obtain ⟨u, hu, ds, r, hend, rfl, hr⟩ := ih
    have hpart : ['\\', c] ∈ stringPart := Or.inr ⟨['\\'], rfl, [c], ⟨c, hfeed, rfl⟩, rfl⟩
    have hmore := append_mem_kstar hpart hu
    exact ⟨_, hmore, ds, r, hend, rfl, by rw [stringTail_escape hfeed, hr]; rfl⟩
  | plain c cs hquote hslash ih =>
    obtain ⟨u, hu, ds, r, hend, rfl, hr⟩ := ih
    have hpart : [c] ∈ stringPart := Or.inl ⟨c, ⟨hquote, hslash⟩, rfl⟩
    have hmore := append_mem_kstar hpart hu
    exact ⟨_, hmore, ds, r, hend, rfl, by rw [stringTail_cons hquote hslash, hr]; rfl⟩

/-! ### Block comments -/

/-- The inside of a block comment: the first closing is the one that follows. -/
def IsBody (body : List Char) : Prop :=
  ¬['*', '/'] <:+: body ++ ['*']

private theorem isBody_nil : IsBody [] := by
  simp [IsBody, List.infix_cons_iff]

private theorem isBody_cons_iff {body : List Char} :
    IsBody (c :: body) ↔ (c = '*' → body.head? ≠ some '/') ∧ IsBody body := by
  have hhead : ['/'] <+: body ++ ['*'] ↔ body.head? = some '/' := by
    cases body <;> simp [List.cons_prefix_cons, eq_comm]
  rw [IsBody, List.cons_append, List.infix_cons_iff, List.cons_prefix_cons, hhead, not_or, not_and,
    eq_comm (a := '*'), IsBody]

private theorem commentTail_cons (h : c = '*' → cs.head? ≠ some '/') :
    commentTail (c :: cs) = (commentTail cs).cons c := by
  rw [commentTail]
  intro ds hc heq
  exact h hc (by rw [heq]; rfl)

theorem commentTail_body {body : List Char} (hbody : IsBody body) (cs : List Char) :
    commentTail (body ++ '*' :: '/' :: cs) = ⟨true, body ++ ['*', '/'], cs⟩ := by
  induction body with
  | nil => rfl
  | cons c body ih =>
    obtain ⟨hc, hbody⟩ := isBody_cons_iff.mp hbody
    have hne : c = '*' → (body ++ '*' :: '/' :: cs).head? ≠ some '/' := by
      cases body with
      | nil => simp
      | cons d body => exact hc
    rw [List.cons_append, commentTail_cons hne, ih hbody]
    rfl

theorem commentTail_cases (cs : List Char) :
    (IsBody cs ∧ commentTail cs = ⟨false, cs, []⟩) ∨
      ∃ body ds, IsBody body ∧ cs = body ++ '*' :: '/' :: ds := by
  fun_induction commentTail cs with
  | case1 => exact Or.inl ⟨isBody_nil, rfl⟩
  | case2 cs => exact Or.inr ⟨[], cs, isBody_nil, rfl⟩
  | case3 c cs hne ih =>
    have hc : c = '*' → cs.head? ≠ some '/' := by
      intro heq hhead
      obtain ⟨ds, rfl⟩ := List.head?_eq_some_iff.mp hhead
      exact hne ds heq rfl
    rcases ih with ⟨hbody, hr⟩ | ⟨body, ds, hbody, rfl⟩
    · exact Or.inl ⟨isBody_cons_iff.mpr ⟨hc, hbody⟩, by rw [hr]; rfl⟩
    · refine Or.inr ⟨c :: body, ds, isBody_cons_iff.mpr ⟨?_, hbody⟩, rfl⟩
      intro heq hhead
      obtain ⟨es, rfl⟩ := List.head?_eq_some_iff.mp hhead
      exact hc heq rfl

private theorem isBody_part {v body : List Char} (hv : v ∈ commentPart) (hbody : IsBody body) :
    IsBody (v ++ body) := by
  rw [commentPart, Language.mem_add] at hv
  rcases hv with ⟨c, hc, rfl⟩ | hv
  · exact isBody_cons_iff.mpr ⟨fun heq => absurd heq hc, hbody⟩
  · obtain ⟨before, hrun, _, ⟨c, ⟨hstar, hslash⟩, rfl⟩, rfl⟩ := Language.mem_mul.mp hv
    have hbefore := (mem_runOf_iff.mp hrun).2
    clear hrun hv
    rw [List.append_assoc, List.singleton_append]
    induction before with
    | nil => exact isBody_cons_iff.mpr ⟨fun heq => absurd heq hstar, hbody⟩
    | cons d before ih =>
      obtain ⟨-, hbefore⟩ := List.forall_mem_cons.mp hbefore
      refine isBody_cons_iff.mpr ⟨fun _ => ?_, ih hbefore⟩
      cases before with
      | nil => simpa using hslash
      | cons e before => simp [hbefore e List.mem_cons_self]

private theorem star_mem : ['*'] ∈ stars :=
  mem_runOf_iff.mpr (by simp)

private theorem star_cons_mem {v : List Char} (hv : v ∈ stars) : '*' :: v ∈ stars :=
  mem_runOf_iff.mpr ⟨List.cons_ne_nil _ v, List.forall_mem_cons.mpr ⟨rfl, (mem_runOf_iff.mp hv).2⟩⟩

private theorem isBody_stars {v : List Char} (hv : ∀ c ∈ v, c = '*') : IsBody v := by
  intro hinfix
  have hslash : '/' ∈ v ++ ['*'] := hinfix.subset (by simp)
  rcases List.mem_append.mp hslash with hmem | hmem
  · exact absurd (hv _ hmem) (by decide)
  · exact absurd hmem (by decide)

private theorem star_cons_part {v : List Char} (hv : v ∈ commentPart) (hhead : v.head? ≠ some '/') :
    '*' :: v ∈ commentPart := by
  rw [commentPart, Language.mem_add] at hv ⊢
  right
  rcases hv with ⟨c, hc, rfl⟩ | hv
  · have hslash : c ≠ '/' := by simpa using hhead
    exact Language.append_mem_mul star_mem ⟨c, ⟨hc, hslash⟩, rfl⟩
  · obtain ⟨before, hbefore, after, hafter, rfl⟩ := Language.mem_mul.mp hv
    exact Language.append_mem_mul (star_cons_mem hbefore) hafter

private theorem IsBody.mem {body : List Char} (hbody : IsBody body) :
    body ++ ['*', '/'] ∈ commentPart∗ * (stars * spelled "/") := by
  induction body with
  | nil => exact ⟨[], Language.nil_mem_kstar _, _, ⟨_, star_mem, _, rfl, rfl⟩, rfl⟩
  | cons c body ih =>
    obtain ⟨hc, hbody⟩ := isBody_cons_iff.mp hbody
    obtain ⟨u, hu, e, he, heq⟩ := Language.mem_mul.mp (ih hbody)
    rw [List.cons_append, ← heq]
    by_cases hstar : c = '*'
    · subst hstar
      have hhead : (u ++ e).head? ≠ some '/' := by
        rw [heq]
        cases body with
        | nil => simp
        | cons d body => exact hc rfl
      refine kstar_induction (P := fun u => (u ++ e).head? ≠ some '/' → '*' :: (u ++ e) ∈ _)
        (fun _ => ?_) (fun v hv u hu _ hhead => ?_) hu hhead
      · obtain ⟨before, hbefore, rfl⟩ := mem_mul_spelled_iff.mp he
        exact ⟨[], Language.nil_mem_kstar _, _, ⟨_, star_cons_mem hbefore, _, rfl, rfl⟩, rfl⟩
      · have hpart : v.head? ≠ some '/' := by
          intro hslash
          rw [List.append_assoc, List.head?_append, hslash] at hhead
          exact hhead rfl
        have hmore := append_mem_kstar (star_cons_part hv hpart) hu
        exact Language.append_mem_mul hmore he
    · have hpart : [c] ∈ commentPart := Or.inl ⟨c, hstar, rfl⟩
      exact Language.append_mem_mul (append_mem_kstar hpart hu) he

/-- The regular expression for block comments describes those that end at the first closing. -/
theorem mem_blockComment_iff :
    w ∈ blockComment ↔ ∃ body, IsBody body ∧ w = '/' :: '*' :: (body ++ ['*', '/']) := by
  simp only [blockComment, mem_spelled_mul_iff]
  constructor
  · rintro ⟨_, hinner, rfl⟩
    obtain ⟨u, hu, _, hend, rfl⟩ := Language.mem_mul.mp hinner
    obtain ⟨v, hstars, rfl⟩ := mem_mul_spelled_iff.mp hend
    obtain ⟨hne, hv⟩ := mem_runOf_iff.mp hstars
    obtain ⟨before, rfl⟩ : ∃ before, v = before ++ ['*'] := by
      have hlast := hv _ (List.getLast_mem hne)
      exact ⟨v.dropLast, by rw [← hlast, List.dropLast_concat_getLast]⟩
    have hbefore : IsBody before := isBody_stars fun c hc => hv c (List.mem_append_left _ hc)
    refine ⟨u ++ before, ?_, by simp⟩
    refine kstar_induction (P := fun u => IsBody (u ++ before)) hbefore ?_ hu
    intro v hv u _ hbody
    rw [List.append_assoc]
    exact isBody_part hv hbody
  · rintro ⟨body, hbody, rfl⟩
    exact ⟨_, hbody.mem, rfl⟩

end Token

end UiCatalog
