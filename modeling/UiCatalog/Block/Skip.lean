import UiCatalog.Kind
import UiCatalog.Token
/-!
# Skipping tokens

After a fault, reading goes on at a place that the damage cannot have reached: behind the next
semicolon, behind a closed brace group, or where a new block starts. Whatever is skipped, what
remains is a suffix of the tokens, which bounds every reader.
-/

namespace UiCatalog.Token

/-- Whether a block starts here: the keyword of a kind, followed by an opening parenthesis. -/
def startsBlock : List Token → Bool
  | keyword :: paren :: _ =>
    keyword.kind == .identifier && (Kind.ofKeyword? keyword.text).isSome && paren.kind == .openParen
  | _ => false

/-- What follows the next brace group, of which `depth` braces are open already. Outside braces,
a lone closing brace ends the group and the start of a block comes before it. -/
def skipGroup (depth : Nat) : List Token → List Token
  | [] => []
  | t :: ts =>
    match t.kind with
    | .openBrace => skipGroup (depth + 1) ts
    | .closeBrace => if depth ≤ 1 then ts else skipGroup (depth - 1) ts
    | _ => if depth = 0 ∧ startsBlock (t :: ts) then t :: ts else skipGroup depth ts

/-- What follows the next semicolon outside braces, of which `depth` are open. The closing brace of
the surrounding body and the start of a block are not passed. -/
def skipStatement (depth : Nat) : List Token → List Token
  | [] => []
  | t :: ts =>
    match t.kind with
    | .semicolon => if depth = 0 then ts else skipStatement depth ts
    | .openBrace => skipStatement (depth + 1) ts
    | .closeBrace => if depth = 0 then t :: ts else skipStatement (depth - 1) ts
    | _ => if depth = 0 ∧ startsBlock (t :: ts) then t :: ts else skipStatement depth ts

def dropSemicolon : List Token → List Token
  | [] => []
  | t :: ts => if t.kind = .semicolon then ts else t :: ts

theorem skipGroup_suffix (depth : Nat) (ts : List Token) : skipGroup depth ts <:+ ts := by
  fun_induction skipGroup depth ts with
  | case1 => exact List.suffix_refl _
  | case2 _ _ _ _ ih => exact ih.trans (List.suffix_cons _ _)
  | case3 => exact List.suffix_cons _ _
  | case4 _ _ _ _ _ ih => exact ih.trans (List.suffix_cons _ _)
  | case5 => exact List.suffix_refl _
  | case6 _ _ _ _ _ _ ih => exact ih.trans (List.suffix_cons _ _)

theorem skipStatement_suffix (depth : Nat) (ts : List Token) : skipStatement depth ts <:+ ts := by
  fun_induction skipStatement depth ts with
  | case1 => exact List.suffix_refl _
  | case2 => exact List.suffix_cons _ _
  | case3 _ _ _ _ _ ih => exact ih.trans (List.suffix_cons _ _)
  | case4 _ _ _ _ ih => exact ih.trans (List.suffix_cons _ _)
  | case5 => exact List.suffix_refl _
  | case6 _ _ _ _ _ ih => exact ih.trans (List.suffix_cons _ _)
  | case7 => exact List.suffix_refl _
  | case8 _ _ _ _ _ _ _ ih => exact ih.trans (List.suffix_cons _ _)

theorem dropSemicolon_suffix (ts : List Token) : dropSemicolon ts <:+ ts := by
  fun_cases dropSemicolon ts
  · exact List.suffix_refl _
  · exact List.suffix_cons _ _
  · exact List.suffix_refl _

end UiCatalog.Token
