import Sidebar.Build
import Sidebar.FileSystem.Name
import Sidebar.Json.Reader
import Sidebar.Raw.OfJson

/-!
# Sidebar.Load: from a configuration file to a validated tree

A configuration file is a JSON document in UTF-8.
-/

namespace Sidebar

/-- What is found at the path of a configuration file. -/
inductive FileState
  | missing
  | directory
  | bytes (content : List UInt8)

/-- Why a file cannot be read. -/
inductive Unreadable
  | missing
  | directory
  /-- No file can be at the path, and the system is not asked. -/
  | inexpressible
deriving DecidableEq

/-- The wording of the system. -/
def Unreadable.message : Unreadable → Text
  | .missing => "[Errno 2] No such file or directory: "
  | .directory => "[Errno 21] Is a directory: "
  | .inexpressible => "embedded null byte"

/-- Why a file makes no validated tree. -/
inductive LoadFailure
  | unreadable (why : Unreadable)
  | encoding (e : Utf8.DecodeError)
  | notJson (fault : Json.Fault) (place : Json.Place)
  /-- The document holds an integer of more digits than are taken. -/
  | longInteger (digits : Nat)
  | build (failure : BuildFailure)
deriving DecidableEq

/-- How many digits an integer in a file can have. -/
def digitLimit : Nat := 4300

/-- Reads the JSON document that bytes hold. -/
def Json.ofBytes (content : List UInt8) : Except LoadFailure Json :=
  match Utf8.decode content with
  | .error e => .error (.encoding e)
  | .ok cs =>
    let source := Utf8.unifyLineEnds cs
    match Json.read? (some digitLimit) source with
    | .ok j => .ok j
    | .error (.fault fault left) => .error (.notJson fault (.ofLeft source left))
    | .error (.longInteger digits) => .error (.longInteger digits)

/-- Reads the configuration file at `path`, if the path can be expressed, and builds its tree. -/
def load (registry : Option Registry) (path : Text) (file : FileState) :
    Logged LoadFailure ValidatedTree :=
  if isUnencodable path then ⟨[], .error (.unreadable .inexpressible)⟩
  else
    match file with
    | .missing => ⟨[], .error (.unreadable .missing)⟩
    | .directory => ⟨[], .error (.unreadable .directory)⟩
    | .bytes content =>
      match Json.ofBytes content with
      | .error failure => ⟨[], .error failure⟩
      | .ok j =>
        let raw := Raw.Heap.ofJson j
        let built := build registry raw.1 raw.2
        ⟨.loaded path :: built.log, built.outcome.mapError .build⟩

/-- The wording of an integer that is too long to be read. -/
def longIntegerMessage (digits : Nat) : Text :=
  "Exceeds the limit (" ++ Text.ofNat digitLimit ++
    " digits) for integer string conversion: value has " ++ Text.ofNat digits ++
    " digits; use sys.set_int_max_str_digits() to increase the limit"

/-- The wording of an integer that is too long to be shown. -/
def unshowableMessage : Text :=
  "Exceeds the limit (" ++ Text.ofNat digitLimit ++
    " digits) for integer string conversion; use sys.set_int_max_str_digits() to increase the limit"

/-- The wording of a file that cannot be read. -/
def unreadableMessage (path : Text) (why : Unreadable) : Text :=
  "Could not read sidebar file " ++ path ++ ": " ++ why.message ++ path.quoted

/-- The wording of a file that is not JSON. -/
def notJsonMessage (path : Text) (fault : Json.Fault) (place : Json.Place) : Text :=
  "Sidebar file " ++ path ++ " is not valid JSON: " ++ fault.messageAt place

end Sidebar
