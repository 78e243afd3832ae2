import Sidebar.Json.Basic
import Sidebar.Raw.Heap

/-!
# Sidebar.Raw.OfJson: JSON values as objects

Every array and every object of a JSON value becomes an object of its own, so nothing is shared
and nothing contains itself.
-/

namespace Sidebar.Raw.Heap

mutual

/-- Adds the objects of a JSON value to a heap. -/
def addJson (h : Heap) : Json → Heap × Value
  | .null => (h, .null)
  | .bool b => (h, .bool b)
  | .int n => (h, .int n)
  | .float x => (h, .float x)
  | .text t => (h, .text t)
  | .array items =>
    let added := addItems h items
    added.1.alloc (.list added.2)
  | .object members =>
    let added := addMembers h members
    added.1.alloc (.mapping added.2)

/-- Adds the objects of several values. -/
def addItems (h : Heap) : List Json → Heap × List Value
  | [] => (h, [])
  | item :: items =>
    let first := addJson h item
    let rest := addItems first.1 items
    (rest.1, first.2 :: rest.2)

/-- Adds the objects of the values of members. -/
def addMembers (h : Heap) : List (Text × Json) → Heap × List (Value × Value)
  | [] => (h, [])
  | (key, value) :: members =>
    let first := addJson h value
    let rest := addMembers first.1 members
    (rest.1, (.text key, first.2) :: rest.2)

end

/-- The heap and the value of a JSON value. -/
def ofJson (j : Json) : Heap × Value := addJson empty j

end Sidebar.Raw.Heap
