import Sidebar.FileSystem.Name
import Sidebar.Keyed

/-!
# Sidebar.FileSystem.Basic: a file system as a tree

Directories hold named entries, each under its name as it is listed; a link holds the text of a
path.  The permission to search a directory is the one permission that looking a path up takes.  A
place in the tree is the list of names that lead to it from the root.
-/

namespace Sidebar

/-- What a name in a directory stands for. -/
inductive Entry
  | file
  | link (target : Text)
  /-- A pipe, a socket or a device. -/
  | special
  /-- `searchable` says whether names in the directory may be looked up. -/
  | directory (searchable : Bool) (children : List (Text × Entry))

namespace Entry

/-- The directory without entries. -/
def empty : Entry := .directory true []

/-- The entry at a place, whatever the permissions. -/
def at? : Entry → List Text → Option Entry
  | e, [] => some e
  | .directory _ children, name :: names =>
    match children.lookup name with
    | some child => at? child names
    | none => none
  | .file, _ :: _ => none
  | .link _, _ :: _ => none
  | .special, _ :: _ => none

/-- Puts an entry where names lead; what is missing on the way becomes a directory.  Nothing changes
when the way leads through an entry that is none. -/
def insert (new : Entry) : List Text → Entry → Entry
  | [], _ => new
  | name :: names, .directory searchable children =>
    .directory searchable <| Keyed.put (listed name)
      (insert new names ((children.lookup (listed name)).getD empty)) children
  | _ :: _, e => e

/-- Makes a directory where names lead, unless there is an entry. -/
def makeDirectory (names : List Text) (e : Entry) : Entry :=
  if (e.at? (names.map listed)).isSome then e else insert empty names e

end Entry

end Sidebar
