import Sidebar.FileSystem.LinkLoop

/-!
# Sidebar.Registry.Basic: which documents exist

A registry answers whether there is a document behind an id.  `IdSet` is a registry of listed ids.
-/

namespace Sidebar

/-- An answer to "is there such a document?", for each id, unless the path that the document would
have ends in a loop of links. -/
structure Registry where
  exists? : Text → Except LinkLoop Bool

/-- The registry that decides by a predicate and always answers. -/
def Registry.ofPred (p : Text → Bool) : Registry := ⟨fun id => .ok (p id)⟩

/-- A finite set of ids. -/
structure IdSet where
  ids : List Text
  distinct : ids.Nodup

namespace IdSet

/-- The set of the listed ids. -/
def ofList (ids : List Text) : IdSet := ⟨ids.eraseDups, by
  induction h : ids.length using Nat.strongRecOn generalizing ids with
  | ind n ih =>
    cases ids with
    | nil => simp
    | cons id ids =>
      rw [List.eraseDups_cons, List.nodup_cons]
      have hl := List.length_filter_le (fun b => !b == id) ids
      refine ⟨fun hm => ?_, ih _ (by simp at h; omega) _ rfl⟩
      simp at hm⟩

/-- The id is in the set. -/
def contains (s : IdSet) (id : Text) : Bool := s.ids.contains id

/-- The number of ids. -/
def size (s : IdSet) : Nat := s.ids.length

/-- The registry in which the documents of the set exist. -/
def registry (s : IdSet) : Registry := .ofPred s.contains

end IdSet

end Sidebar
