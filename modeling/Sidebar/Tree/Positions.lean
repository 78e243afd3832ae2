import Sidebar.Tree.Basic

/-!
# Sidebar.Tree.Positions: the items of a tree in document order

`Tree.positions` lists every item of a tree with its path: group by group, each item before the
items in it.  Main statements: the equations of `Item.positionsFrom` over lists.
-/

namespace Sidebar

namespace Item

mutual

/-- The item itself and the items in it, with their paths. -/
def positions (path : NodePath) : Item → List (NodePath × Item)
  | .doc d => [(path, .doc d)]
  | .category label items => (path, .category label items) :: positionsFrom path 0 items

/-- The items of a list of which the first has number `i`, and the items in them. -/
def positionsFrom (path : NodePath) (i : Nat) : List Item → List (NodePath × Item)
  | [] => []
  | x :: xs => positions (path.child i) x ++ positionsFrom path (i + 1) xs

end

/-- The document that the item is. -/
def doc? : Item → Option Doc
  | .doc d => some d
  | .category .. => none

theorem eq_doc_of_doc? {x : Item} {d : Doc} (h : x.doc? = some d) : x = .doc d := by
  cases x with
  | doc e => rw [Option.some.inj h]
  | category label items => cases h

theorem positionsFrom_append (path : NodePath) (i : Nat) (xs ys : List Item) :
    positionsFrom path i (xs ++ ys) =
      positionsFrom path i xs ++ positionsFrom path (i + xs.length) ys := by
  induction xs generalizing i with
  | nil => rfl
  | cons x xs ih =>
    simp only [List.cons_append, positionsFrom, ih (i + 1), List.append_assoc, List.length_cons]
    congr 3
    omega

end Item

/-- The documents among positions. -/
def docsOf (ps : List (NodePath × Item)) : List Doc := ps.filterMap fun p => p.2.doc?

/-- Every item of the tree with its path, in document order. -/
def Tree.positions (t : Tree) : List (NodePath × Item) :=
  t.groups.flatMap fun g => Item.positionsFrom (.ofGroup g.1) 0 g.2

/-- The documents of the tree, in document order. -/
def Tree.docs (t : Tree) : List Doc := docsOf t.positions

end Sidebar
