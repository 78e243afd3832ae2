import Sidebar.Keyed
import Sidebar.Number.Binary64

/-!
# Sidebar.Json.Basic: JSON values and the errors of reading them

Members of an object keep the order in which they are written, and integers are told apart from
numbers with a point or an exponent.  An error says what was expected and how much of the source
was left, which `Json.Place.ofLeft` turns into a line and a column.
-/

namespace Sidebar

/-- A JSON value. -/
inductive Json
  | null
  | bool (b : Bool)
  | int (n : Int)
  | float (x : Binary64)
  | text (t : Text)
  | array (items : List Json)
  | object (members : List (Text × Json))

namespace Json

instance : Inhabited Json := ⟨.null⟩

/-- The object of members of which each later one replaces an earlier one of its key. -/
def ofMembers (ms : List (Text × Json)) : Json := .object (Keyed.ofEntries ms)

/-- The value under a key of an object. -/
def get? (key : Text) : Json → Option Json
  | .object ms => ms.lookup key
  | _ => none

/-- What is wrong with a source text. -/
inductive Fault
  | value
  | propertyName
  | colon
  | comma
  | extraData
  | byteOrderMark
  | controlCharacter
  | unterminatedString
  | escape
  | unicodeEscape
deriving DecidableEq

/-- Where reading stopped, by the number of characters from there to the end, and why. -/
inductive Failure
  | fault (fault : Fault) (left : Nat)
  /-- An integer has more digits than the reader is ready to take. -/
  | longInteger (digits : Nat)
deriving DecidableEq

/-- The wording of a fault. -/
def Fault.message : Fault → Text
  | .value => "Expecting value"
  | .propertyName => "Expecting property name enclosed in double quotes"
  | .colon => "Expecting ':' delimiter"
  | .comma => "Expecting ',' delimiter"
  | .extraData => "Extra data"
  | .byteOrderMark => "Unexpected UTF-8 BOM (decode using utf-8-sig)"
  | .controlCharacter => "Invalid control character at"
  | .unterminatedString => "Unterminated string starting at"
  | .escape => "Invalid \\escape"
  | .unicodeEscape => "Invalid \\uXXXX escape"

/-- A place in a source text: an offset from zero, a line and a column from one. -/
structure Place where
  offset : Nat
  line : Nat
  column : Nat
deriving DecidableEq

/-- The place from which `left` characters remain. -/
def Place.ofLeft (source : List Char) (left : Nat) : Place :=
  let before := source.take (source.length - left)
  ⟨before.length, before.count '\n' + 1, (before.reverse.takeWhile (· ≠ '\n')).length + 1⟩

/-- The wording of a fault at a place. -/
def Fault.messageAt (fault : Fault) (place : Place) : Text :=
  fault.message ++ ": line " ++ Text.ofNat place.line ++ " column " ++ Text.ofNat place.column ++
    " (char " ++ Text.ofNat place.offset ++ ")"

end Json

end Sidebar
