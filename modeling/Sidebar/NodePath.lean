import Sidebar.Text.Basic

/-!
# Sidebar.NodePath: positions in a sidebar

A node path names a group and gives the index of every item that is stepped through from there.
-/

namespace Sidebar

/-- A step of a node path. -/
inductive PathStep
  | name (group : Text)
  | index (i : Int)
deriving DecidableEq

/-- A position; the empty path is the configuration itself. -/
abbrev NodePath := List PathStep

/-- The path of a whole group. -/
def NodePath.ofGroup (group : Text) : NodePath := [.name group]

/-- The path of the item with number `i` in what is at `path`. -/
def NodePath.child (path : NodePath) (i : Nat) : NodePath := path ++ [.index i]

/-- A step without its brackets. -/
def PathStep.render : PathStep → Text
  | .name group => group
  | .index i => Text.ofInt i

/-- A step in its brackets. -/
def PathStep.bracketed (step : PathStep) : Text := "[" ++ step.render ++ "]"

/-- The notation of a path, such as `group[0][2]`. -/
def NodePath.render : NodePath → Text
  | [] => "<root>"
  | first :: rest => first.render ++ rest.flatMap PathStep.bracketed

theorem NodePath.render_child {path : NodePath} (h : path ≠ []) (i : Nat) :
    (path.child i).render = path.render ++ (PathStep.index i).bracketed := by
  cases path with
  | nil => exact absurd rfl h
  | cons first rest => simp [NodePath.child, NodePath.render]

end Sidebar
