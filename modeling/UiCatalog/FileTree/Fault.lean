/-!
# Faults of file access

What can go wrong with a path, and how it is put into words.
-/

namespace UiCatalog

inductive ReadFault where
  /-- There is nothing at the path to choose a way of reading for. -/
  | absent
  | notFound
  | notDirectory
  | isDirectory
  | tooManyLinks
  | nameTooLong
  | zeroInPath
  | invalidText
deriving DecidableEq

def ReadFault.message : ReadFault → String
  | .absent => "entity not found"
  | .notFound => "No such file or directory (os error 2)"
  | .notDirectory => "Not a directory (os error 20)"
  | .isDirectory => "Is a directory (os error 21)"
  | .tooManyLinks => "Too many levels of symbolic links (os error 40)"
  | .nameTooLong => "File name too long (os error 36)"
  | .zeroInPath => "file name contained an unexpected NUL byte"
  | .invalidText => "stream did not contain valid UTF-8"

/-- Why the definition files at a path cannot be had. -/
inductive AccessFault where
  | unreadable (path : String) (reason : ReadFault)
  | notADirectory (path : String)
  | unsupportedExtension (path : String)
deriving DecidableEq

def AccessFault.message : AccessFault → String
  | .unreadable path reason => s!"failed to read {path}: {reason.message}"
  | .notADirectory path => s!"directory not found: {path}"
  | .unsupportedExtension path => s!"unsupported file extension: {path}"

end UiCatalog
