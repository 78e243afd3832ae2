import Sidebar.Violation

/-!
# Sidebar.Report: violations in words
-/

namespace Sidebar

/-- The line of a violation in a report. -/
def Violation.line (v : Violation) : Text :=
  v.kind.name ++ " " ++ v.path.render ++ ": " ++ v.message

/-- The line of a violation in an error message. -/
def Violation.indentedLine (v : Violation) : Text :=
  "  " ++ v.kind.name ++ " at " ++ v.path.render ++ ": " ++ v.message

/-- One line for each violation. -/
def report (vs : List Violation) : Text := List.intercalate "\n" (vs.map Violation.line)

/-- The message of a failed validation: a header and a line for each violation. -/
def failureMessage (vs : List Violation) : Text :=
  let header : Text :=
    "Sidebar validation failed with " ++ Text.ofNat vs.length ++ " violation(s):"
  List.intercalate "\n" (header :: vs.map Violation.indentedLine)

end Sidebar
