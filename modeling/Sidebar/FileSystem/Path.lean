import Sidebar.Text.Basic

/-!
# Sidebar.FileSystem.Path: the notation of paths

A path is written as names between slashes.  Empty names and single dots mean nothing; double dots
mean the directory above.
-/

namespace Sidebar

/-- The slash between the names of a path. -/
def slash : CodePoint := CodePoint.ofChar '/'

/-- The name of the directory itself. -/
def selfName : Text := "."

/-- The name of the directory above. -/
def parentName : Text := ".."

/-- The path starts at the root. -/
def isAbsolute (path : Text) : Bool := path.head? = some slash

/-- The names that the path is written with, empty ones included. -/
def segments (path : Text) : List Text := Text.split slash path

/-- The name is left out when paths are put together. -/
def isIdle (name : Text) : Bool := name = [] || name = selfName

/-- A path as it is handed on: absolute or not, without idle names. -/
structure Path where
  absolute : Bool
  names : List Text
deriving DecidableEq

namespace Path

/-- The path that a text writes. -/
def parse (t : Text) : Path := ⟨isAbsolute t, (segments t).filter fun name => !isIdle name⟩

/-- The second path, read from where the first one leads. -/
def join (p q : Path) : Path := if q.absolute then q else ⟨p.absolute, p.names ++ q.names⟩

end Path

/-- A place in the file system as it is spelled from the root.  Two slashes at the start of a path
are told apart from one when it is shown or compared, and lead to the same place. -/
structure Location where
  doubleSlash : Bool
  names : List Text
deriving DecidableEq

namespace Location

/-- The text of a location. -/
def render (l : Location) : Text :=
  (if l.doubleSlash then "//" else "/" : String) ++ List.intercalate [slash] l.names

/-- The location is `root` or below it. -/
def isWithin (l root : Location) : Bool :=
  root.doubleSlash == l.doubleSlash && root.names.isPrefixOf l.names

/-- One name more: idle names change nothing, and double dots take the last name away. -/
def step (names : List Text) (name : Text) : List Text :=
  if isIdle name then names
  else if name = parentName then names.dropLast
  else names ++ [name]

/-- The location without idle names and double dots, which are worked off by name alone. -/
def normalize (l : Location) : Location := ⟨l.doubleSlash, l.names.foldl step []⟩

/-- The path goes on with the segments `rest`.  Segments that begin with an empty one, and go on
behind it, are an absolute path of their own. -/
def extend (l : Location) (rest : List Text) : Location :=
  match rest with
  | [] :: [] :: name :: more =>
    if name = [] ∧ more ≠ [] then ⟨false, name :: more⟩ else ⟨true, name :: more⟩
  | [] :: name :: more => ⟨false, name :: more⟩
  | rest => ⟨l.doubleSlash, l.names ++ rest⟩

end Location

end Sidebar
