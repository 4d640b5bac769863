/-!
# Properties

Properties are pairs of a key and a value in the order in which their keys first appeared. Setting a
key again changes its value and leaves its place.
-/

namespace UiCatalog

abbrev Properties := List (String × String)

namespace Properties

def set : Properties → String → String → Properties
  | [], key, value => [(key, value)]
  | (k, v) :: ps, key, value =>
    if k = key then (k, value) :: ps else (k, v) :: set ps key value

def setAll (ps later : Properties) : Properties :=
  later.foldl (fun ps (key, value) => ps.set key value) ps

def get? (ps : Properties) (key : String) : Option String :=
  List.lookup key ps

def keys (ps : Properties) : List String :=
  ps.map Prod.fst

end Properties

end UiCatalog
