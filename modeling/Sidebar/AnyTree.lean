import Sidebar.Record.Error
import Sidebar.Validation

/-!
# Sidebar.AnyTree: trees, validated or not

Questions and outlines take a tree whether it is validated or not.  Two such trees are equal only
when both are validated or neither is, and a tree that is validated already is not wrapped again.
-/

namespace Sidebar

/-- A tree that may have been validated. -/
inductive AnyTree
  | plain (t : Tree)
  | validated (t : ValidatedTree)
deriving DecidableEq

/-- Why a tree is not validated. -/
inductive WrapFailure
  | validation (failure : ValidationFailure)
  /-- Only a plain tree can be wrapped as a validated one. -/
  | wrapped (e : FieldError)
deriving DecidableEq

namespace AnyTree

/-- The tree itself. -/
def tree : AnyTree → Tree
  | plain t => t
  | validated t => t.tree

/-- Both are validated or neither is, and they have the same groups. -/
def same : AnyTree → AnyTree → Bool
  | plain t, plain u => t.sameGroups u
  | validated t, validated u => t.tree.sameGroups u.tree
  | _, _ => false

/-- Checks a tree and wraps it, if it is a plain one. -/
def validate (registry : Option Registry) (t : AnyTree) : Logged WrapFailure ValidatedTree :=
  let checked := t.tree.validate registry
  match t with
  | plain _ => ⟨checked.log, checked.outcome.mapError .validation⟩
  | validated _ =>
    match checked.outcome with
    | .error failure => ⟨checked.log, .error (.validation failure)⟩
    | .ok _ => ⟨checked.log, .error (.wrapped ⟨.notRecord "SidebarTree", [.name "tree"]⟩)⟩

end AnyTree

end Sidebar
