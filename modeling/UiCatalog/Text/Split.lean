/-!
# Splitting at a character

A text with `n` separators has `n + 1` parts, of which some may be empty.
-/

namespace UiCatalog.Text

/-- The parts of a text between the occurrences of a separator. -/
def splitAt (separator : Char) : List Char → List (List Char)
  | [] => [[]]
  | c :: cs =>
    match c == separator, splitAt separator cs with
    | true, parts => [] :: parts
    | false, [] => [[c]]
    | false, part :: parts => (c :: part) :: parts

end UiCatalog.Text
