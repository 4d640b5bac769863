/-!
# Kinds of definitions

Every definition has one of five kinds. Commands and menus are navigable: they have children and
targets. A child is declared as a command or as a menu.
-/

namespace UiCatalog

inductive Kind where
  | type
  | command
  | menu
  | table
  | form
deriving DecidableEq

namespace Kind

def all : List Kind :=
  [.type, .command, .menu, .table, .form]

/-- The word that opens a block of the kind, also its name in messages. -/
def keyword : Kind → String
  | .type => "Type"
  | .command => "Command"
  | .menu => "Menu"
  | .table => "Table"
  | .form => "Form"

def ofKeyword? (word : String) : Option Kind :=
  all.find? (·.keyword == word)

/-- Whether definitions of the kind may have children and a target. -/
def isNavigable : Kind → Bool
  | .command | .menu => true
  | .type | .table | .form => false

end Kind

/-- The two ways to declare a child. -/
inductive ChildKind where
  | command
  | menu
deriving DecidableEq

namespace ChildKind

def keyword : ChildKind → String
  | .command => "CommandRef"
  | .menu => "MenuRef"

def ofKeyword? (word : String) : Option ChildKind :=
  [command, menu].find? (·.keyword == word)

def kind : ChildKind → Kind
  | .command => .command
  | .menu => .menu

end ChildKind

end UiCatalog
