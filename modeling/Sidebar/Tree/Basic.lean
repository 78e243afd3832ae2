import Sidebar.Keyed
import Sidebar.NodePath

/-!
# Sidebar.Tree.Basic: sidebar trees

A sidebar is a list of named groups of items, an item being a document or a category of items.
Names of groups are distinct.  Main statement: items can be told apart (`Item.instDecidableEq`).
-/

namespace Sidebar

/-- A reference to a document. -/
structure Doc where
  id : Text
  label : Text
deriving DecidableEq

/-- A document, or a labelled list of items. -/
inductive Item
  | doc (d : Doc)
  | category (label : Text) (items : List Item)

namespace Item

mutual

/-- Decides whether two items are the same. -/
def decEq (x y : Item) : Decidable (x = y) :=
  match x, y with
  | .doc d, .doc e =>
    if h : d = e then .isTrue (by rw [h]) else .isFalse (by simpa using h)
  | .category l xs, .category m ys =>
    match decEqAll xs ys with
    | .isTrue hi =>
      if h : l = m then .isTrue (by rw [h, hi]) else .isFalse (by simp [h])
    | .isFalse hi => .isFalse (by simp [hi])
  | .doc _, .category .. => .isFalse (by simp)
  | .category .., .doc _ => .isFalse (by simp)

/-- Decides whether two lists of items are the same. -/
def decEqAll (xs ys : List Item) : Decidable (xs = ys) :=
  match xs, ys with
  | [], [] => .isTrue rfl
  | x :: xs, y :: ys =>
    match decEq x y with
    | .isTrue h =>
      match decEqAll xs ys with
      | .isTrue hs => .isTrue (by rw [h, hs])
      | .isFalse hs => .isFalse (by simp [hs])
    | .isFalse h => .isFalse (by simp [h])
  | [], _ :: _ => .isFalse (by simp)
  | _ :: _, [] => .isFalse (by simp)

end

instance : DecidableEq Item := decEq

end Item

/-- A group: its name and its items. -/
abbrev Group := Text × List Item

/-- A sidebar: groups with distinct names, in the order in which they are declared. -/
structure Tree where
  groups : List Group
  distinct : (Keyed.keys groups).Nodup
deriving DecidableEq

namespace Tree

/-- The tree of groups of which each later one replaces an earlier one of its name. -/
def ofGroups (gs : List Group) : Tree := ⟨Keyed.ofEntries gs, Keyed.nodup_ofEntries gs⟩

theorem groups_ofGroups {gs : List Group} (h : (Keyed.keys gs).Nodup) :
    (ofGroups gs).groups = gs := Keyed.ofEntries_eq_self h

/-- The names of the groups. -/
def names (t : Tree) : List Text := Keyed.keys t.groups

/-- The items of a group. -/
def items? (t : Tree) (name : Text) : Option (List Item) := t.groups.lookup name

/-- The trees have the same groups with the same items, in whatever order. -/
def sameGroups (t u : Tree) : Bool :=
  t.groups.length == u.groups.length && t.groups.all fun g => u.items? g.1 == some g.2

end Tree

end Sidebar
