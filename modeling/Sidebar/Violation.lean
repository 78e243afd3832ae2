import Sidebar.Text.Quoted
import Sidebar.Tree.Basic

/-!
# Sidebar.Violation: what can be wrong with a tree

Three rules hold across a tree: a document id is used once, a category has items, and a document
that is referred to exists.  A violation says which rule an item breaks and where.
-/

namespace Sidebar

/-- The rule that is broken. -/
inductive ViolationKind
  | duplicateId
  | emptyCategory
  | unknownDocReference
deriving DecidableEq

/-- The name of a rule in reports. -/
def ViolationKind.name : ViolationKind → Text
  | .duplicateId => "DuplicateId"
  | .emptyCategory => "EmptyCategory"
  | .unknownDocReference => "UnknownDocReference"

/-- A broken rule: which, where, by what item and, for an id that is used again, where it was
used first. -/
structure Violation where
  kind : ViolationKind
  path : NodePath
  docId : Option Text
  label : Option Text
  message : Text
  firstPath : Option NodePath
deriving DecidableEq

namespace Violation

/-- The document at `path` has the id of the one at `first`. -/
def duplicateId (path : NodePath) (d : Doc) (first : NodePath) : Violation :=
  ⟨.duplicateId, path, some d.id, some d.label,
    "doc id " ++ d.id.quoted ++ " already used at " ++ first.render, some first⟩

/-- The category at `path` has no items. -/
def emptyCategory (path : NodePath) (label : Text) : Violation :=
  ⟨.emptyCategory, path, none, some label, "category " ++ label.quoted ++ " has no items", none⟩

/-- The document at `path` does not exist. -/
def unknownDoc (path : NodePath) (d : Doc) : Violation :=
  ⟨.unknownDocReference, path, some d.id, some d.label,
    "doc id " ++ d.id.quoted ++ " has no matching document", none⟩

end Violation

end Sidebar
