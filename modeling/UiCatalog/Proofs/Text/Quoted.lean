import UiCatalog.Text.Quoted
/-!
# Quoting

A text is quoted by a backslash before each of its quotes and backslashes. Every text can be read
back from its literal.
-/

namespace UiCatalog.Text

def escapeChar (c : Char) : List Char :=
  if c = '\\' ∨ c = '"' then ['\\', c] else [c]

def escape (cs : List Char) : List Char :=
  cs.flatMap escapeChar

/-- The literal that stands for a text. -/
def quote (s : String) : String :=
  String.ofList ('"' :: (escape s.toList ++ ['"']))

theorem escape_cons_mark {c : Char} (hc : c = '\\' ∨ c = '"') (cs : List Char) :
    escape (c :: cs) = '\\' :: c :: escape cs := by
  rw [escape, List.flatMap_cons, escapeChar, if_pos hc]
  rfl

theorem escape_cons_plain {c : Char} (hc : ¬(c = '\\' ∨ c = '"')) (cs : List Char) :
    escape (c :: cs) = c :: escape cs := by
  rw [escape, List.flatMap_cons, escapeChar, if_neg hc]
  rfl

private theorem unescape_cons {c : Char} (hc : c ≠ '\\') (cs : List Char) :
    unescape (c :: cs) = c :: unescape cs := by
  rw [unescape]
  all_goals
    intros
    exact hc ‹_›

private theorem unescape_escape (cs : List Char) : unescape (escape cs) = cs := by
  induction cs with
  | nil => rfl
  | cons c cs ih =>
    by_cases hc : c = '\\' ∨ c = '"'
    · rw [escape_cons_mark hc]
      rcases hc with rfl | rfl
      · rw [unescape, ih]
      · rw [unescape, ih]
    · have hslash : c ≠ '\\' := (not_or.mp hc).1
      rw [escape_cons_plain hc, unescape_cons hslash, ih]

theorem unquote_quote (s : String) : unquote (quote s) = s := by
  have hlast : (escape s.toList ++ ['"']).getLast? = some '"' := List.getLast?_concat
  rw [unquote, quote, String.toList_ofList, unwrap, if_pos hlast, List.dropLast_concat,
    unescape_escape, String.ofList_toList]

end UiCatalog.Text
