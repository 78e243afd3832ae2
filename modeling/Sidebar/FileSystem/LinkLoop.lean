import Sidebar.Text.Quoted

/-!
# Sidebar.FileSystem.LinkLoop: links that lead back to themselves
-/

namespace Sidebar

/-- A path that leads into a loop of links. -/
structure LinkLoop where
  path : Text
deriving DecidableEq

/-- The wording of the error. -/
def LinkLoop.message (loop : LinkLoop) : Text := "Symlink loop from " ++ loop.path.quoted

end Sidebar
