import Sidebar.FileSystem.Resolve
import Sidebar.Registry.Basic

/-!
# Sidebar.Registry.Directory: documents as files

A document exists when, with one of the extensions added to its id, there is a file of that path
below the content root.  The extensions are tried in order; a path that leaves the root, that the
system cannot express or that it refuses to look up ends the search.
-/

namespace Sidebar

/-- The files below a content root that have one of several extensions. -/
structure DirectoryRegistry where
  files : Entry
  root : Location
  extensions : List Text

namespace DirectoryRegistry

/-- The registry of a root directory whose links are followed first. -/
def open? (files : Entry) (work : List Text) (root : Path) (extensions : List Text) :
    Except ResolveError DirectoryRegistry :=
  (files.resolve work root).map fun l => ⟨files, l, extensions⟩

/-- What one extension says about a document. -/
inductive Candidate
  /-- There is a file. -/
  | found (l : Location)
  /-- There is none; the next extension may do. -/
  | absent
  /-- There can be none, whatever the extension. -/
  | refused
deriving DecidableEq

/-- Tries one extension. -/
def candidate (r : DirectoryRegistry) (id extension : Text) : Except LinkLoop Candidate :=
  match r.files.resolve [] (.join ⟨true, r.root.names⟩ (.parse (id ++ extension))) with
  | .error .unencodable => .ok .refused
  | .error (.linkLoop loop) => .error loop
  | .ok l =>
    if l.isWithin r.root then
      match r.files.stat l with
      | .ok .file => .ok (.found l)
      | .error .nameTooLong => .ok .refused
      | .error .notPermitted => .ok .refused
      | _ => .ok .absent
    else .ok .refused

/-- Tries extensions one after the other. -/
def firstFile (r : DirectoryRegistry) (id : Text) :
    List Text → Except LinkLoop (Option Location)
  | [] => .ok none
  | extension :: extensions =>
    match r.candidate id extension with
    | .error loop => .error loop
    | .ok (.found l) => .ok (some l)
    | .ok .refused => .ok none
    | .ok .absent => firstFile r id extensions

/-- The file of a document. -/
def pathFor (r : DirectoryRegistry) (id : Text) : Except LinkLoop (Option Location) :=
  r.firstFile id r.extensions

/-- The registry in which the documents that have a file exist. -/
def registry (r : DirectoryRegistry) : Registry := ⟨fun id => (r.pathFor id).map Option.isSome⟩

end DirectoryRegistry

end Sidebar
