import Sidebar.Tree.Basic

/-!
# Sidebar.Outline: a tree as indented text

Each group is a heading and below it a line for every item, indented by its depth; groups are set
apart by an empty line.
-/

namespace Sidebar

namespace Item

/-- Four blanks for each level. -/
def indent (depth : Nat) : Text := List.replicate (4 * depth) (CodePoint.ofChar ' ')

mutual

/-- The lines of an item at a depth. -/
def outline (depth : Nat) : Item → Text
  | .doc d => indent depth ++ d.label ++ " (" ++ d.id ++ ")"
  | .category label [] => indent depth ++ label ++ "/"
  | .category label (x :: xs) =>
    indent depth ++ label ++ "/" ++ "\n" ++
      List.intercalate "\n" (outline (depth + 1) x :: outlines (depth + 1) xs)

/-- The lines of each of several items. -/
def outlines (depth : Nat) : List Item → List Text
  | [] => []
  | x :: xs => outline depth x :: outlines depth xs

end

mutual

/-- How many documents an item holds. -/
def countDocs : Item → Nat
  | .doc _ => 1
  | .category _ items => countDocsAll items

/-- How many documents several items hold. -/
def countDocsAll : List Item → Nat
  | [] => 0
  | x :: xs => countDocs x + countDocsAll xs

end

mutual

/-- How many categories an item holds, itself included. -/
def countCategories : Item → Nat
  | .doc _ => 0
  | .category _ items => 1 + countCategoriesAll items

/-- How many categories several items hold. -/
def countCategoriesAll : List Item → Nat
  | [] => 0
  | x :: xs => countCategories x + countCategoriesAll xs

end

end Item

/-- The heading of a group and the lines of its items. -/
def Group.outline (g : Group) : Text :=
  let heading : Text := "Sidebar: " ++ g.1
  let body : Text := List.intercalate "\n" (Item.outlines 1 g.2)
  if body = [] then heading else heading ++ "\n" ++ body

/-- The outline of a tree. -/
def Tree.outline (t : Tree) : Text := List.intercalate "\n\n" (t.groups.map Group.outline)

/-- The number of documents and of categories in each group. -/
def Tree.counts (t : Tree) : List (Text × Nat × Nat) :=
  t.groups.map fun g => (g.1, Item.countDocsAll g.2, Item.countCategoriesAll g.2)

end Sidebar
