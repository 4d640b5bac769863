/-!
# Options of a load
-/

namespace UiCatalog

structure Options where
  /-- Whether independent entities may be resolved at the same time; the result is the same. -/
  parallel : Bool
  /-- Whether a child of the other navigable kind than declared is worth a warning. -/
  checkChildKinds : Bool
  /-- The extensions, without dot, of the files that a directory contributes. -/
  extensions : List String
  /-- What separates the names in the property with the query types. -/
  separator : Char
deriving DecidableEq

namespace Options

def standard : Options :=
  ⟨true, true, ["ci"], ';'⟩

/-- Whether an extension is among the configured ones; the case of ASCII letters does not matter. -/
def acceptsExtension (o : Options) (extension : String) : Bool :=
  o.extensions.any fun e => e.toList.map Char.toLower == extension.toList.map Char.toLower

end Options

end UiCatalog
