/-!
# Quoted text

A string literal stands between two quotes. Inside, a backslash before a quote or a backslash stands
for that character; any other backslash stands for itself, so a path such as `Type\Attribute` needs
no escape.
-/

namespace UiCatalog.Text

def unescape : List Char → List Char
  | [] => []
  | '\\' :: '"' :: cs => '"' :: unescape cs
  | '\\' :: '\\' :: cs => '\\' :: unescape cs
  | c :: cs => c :: unescape cs

/-- What stands between the quotes of a literal; a text without both quotes is taken whole. -/
def unwrap (cs : List Char) : List Char :=
  match cs with
  | '"' :: inner => if inner.getLast? = some '"' then inner.dropLast else cs
  | _ => cs

def unquote (literal : String) : String :=
  String.ofList (unescape (unwrap literal.toList))

end UiCatalog.Text
