import Sidebar.Violation

/-!
# Sidebar.Log: what is logged on the way

A step that logs returns its records, in order, beside its outcome; they are there whether it
succeeds or fails.
-/

namespace Sidebar

/-- The weight of a record. -/
inductive LogLevel
  | debug
  | info
deriving DecidableEq

/-- A record of something that happened. -/
inductive LogRecord
  /-- A rule was found broken, at the rendered path. -/
  | violation (kind : ViolationKind) (path : Text)
  /-- A tree was validated that has these groups and so many document ids. -/
  | validated (groups : List Text) (docs : Nat)
  /-- A configuration file was read. -/
  | loaded (path : Text)
deriving DecidableEq

namespace LogRecord

/-- The weight of the record. -/
def level : LogRecord → LogLevel
  | .violation .. => .debug
  | .validated .. => .info
  | .loaded _ => .debug

/-- The words of the record. -/
def message : LogRecord → Text
  | .violation .. => "Sidebar violation"
  | .validated .. => "Validated sidebar tree"
  | .loaded _ => "Loaded sidebar config"

/-- The record of a violation. -/
def ofViolation (v : Violation) : LogRecord := .violation v.kind v.path.render

end LogRecord

/-- An outcome and the records that were logged before it. -/
structure Logged (ε α : Type) where
  log : List LogRecord
  outcome : Except ε α

end Sidebar
