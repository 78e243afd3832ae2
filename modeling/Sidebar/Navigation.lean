import Sidebar.Text.Quoted
import Sidebar.Tree.Basic

/-!
# Sidebar.Navigation: questions about a tree

Which documents a group holds, which categories lead to a document, and which documents come
before and after it in its group.  The questions are meant for a validated tree, in which a
document has one place; in any other tree they are about its first place.
-/

namespace Sidebar

namespace Item

mutual

/-- The documents of an item, each with the labels of the categories that lead to it, outermost
first; `above` are the labels that lead to the item. -/
def trails (above : List Text) : Item → List (Doc × List Text)
  | .doc d => [(d, above)]
  | .category label items => trailsAll (above ++ [label]) items

/-- The documents of a list of items, each with the labels that lead to it. -/
def trailsAll (above : List Text) : List Item → List (Doc × List Text)
  | [] => []
  | x :: xs => trails above x ++ trailsAll above xs

end

/-- The documents of a list of items, in document order. -/
def docs (items : List Item) : List Doc := (trailsAll [] items).map (·.1)

end Item

/-- What is not in a tree. -/
inductive NotFound
  | group (name : Text)
  | anyGroup
  | doc (id : Text)
deriving DecidableEq

/-- The wording of an error. -/
def NotFound.message : NotFound → Text
  | .group name => "Sidebar group " ++ name.quoted ++ " not found"
  | .anyGroup => "Sidebar tree has no groups"
  | .doc id => "Doc " ++ id.quoted ++ " not found in sidebar"

/-- The neighbours of a document in its group. -/
structure Pagination where
  previous : Option Doc
  next : Option Doc
deriving DecidableEq

namespace Tree

/-- The group that a question is about: the one that is asked for, or else `standard` if there is
such a group, or else the first one. -/
def resolveGroup (standard : Text) (t : Tree) (group : Option Text) : Except NotFound Group :=
  match group with
  | some name =>
    match t.items? name with
    | some items => .ok (name, items)
    | none => .error (.group name)
  | none =>
    match t.items? standard with
    | some items => .ok (standard, items)
    | none =>
      match t.groups with
      | g :: _ => .ok g
      | [] => .error .anyGroup

/-- The documents of a group, in document order. -/
def flatten (standard : Text) (t : Tree) (group : Option Text) : Except NotFound (List Doc) :=
  (t.resolveGroup standard group).map fun g => Item.docs g.2

/-- The first place of a document: its group, and the labels of the categories that lead to it. -/
def locate (t : Tree) (id : Text) : Except NotFound (Group × List Text) :=
  let found := t.groups.findSome? fun g =>
    ((Item.trailsAll [] g.2).find? fun trail => trail.1.id = id).map fun trail => (g, trail.2)
  match found with
  | some place => .ok place
  | none => .error (.doc id)

/-- The labels of the categories that lead to a document, outermost first. -/
def breadcrumb (t : Tree) (id : Text) : Except NotFound (List Text) := (t.locate id).map (·.2)

/-- The documents before and after a document in its group. -/
def pagination (t : Tree) (id : Text) : Except NotFound Pagination :=
  (t.locate id).map fun place =>
    let docs := Item.docs place.1.2
    let i := docs.findIdx fun d => d.id = id
    ⟨if i = 0 then none else docs[i - 1]?, docs[i + 1]?⟩

end Tree

end Sidebar
