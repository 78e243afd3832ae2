import Sidebar.Number.Binary64
import Sidebar.Unseen

/-!
# Sidebar.Raw.Heap: unread configurations as graphs of objects

A configuration that has not been read yet is a value in a heap of lists, tuples, mappings and
sets.  Objects have an identity, their address: two places can hold the same object, and an object
can be reached from itself.  `Heap.view` is what a value is once its address is looked up, and
`Heap.unvisited` counts the objects that a walk has not entered, which is what makes walks end.
-/

namespace Sidebar.Raw

/-- The identity of an object. -/
abbrev Address := Nat

/-- A value: an immediate one, or the address of an object. -/
inductive Value
  | null
  | bool (b : Bool)
  | int (n : Int)
  | float (x : Binary64)
  | text (t : Text)
  | bytes (bs : List UInt8)
  | ref (a : Address)
deriving DecidableEq

instance : Inhabited Value := ⟨.null⟩

/-- An object: what an address stands for.  These are the objects of the configuration language
considered here; lists and tuples are its only sequences besides texts and bytes.  The keys of a
mapping are distinct, and so are the elements of a set. -/
inductive Object
  | list (items : List Value)
  | tuple (items : List Value)
  | mapping (entries : List (Value × Value))
  | set (elements : List Value)
deriving DecidableEq

/-- The objects by address. -/
structure Heap where
  objects : Array Object
deriving DecidableEq

/-- A value with its object looked up. -/
inductive View
  | null
  | bool (b : Bool)
  | int (n : Int)
  | float (x : Binary64)
  | text (t : Text)
  | bytes (bs : List UInt8)
  | list (a : Address) (items : List Value)
  | tuple (a : Address) (items : List Value)
  | mapping (a : Address) (entries : List (Value × Value))
  | set (a : Address) (elements : List Value)
deriving DecidableEq

/-- The name of the type of a value. -/
def View.typeName : View → Text
  | .null => "NoneType"
  | .bool _ => "bool"
  | .int _ => "int"
  | .float _ => "float"
  | .text _ => "str"
  | .bytes _ => "bytes"
  | .list .. => "list"
  | .tuple .. => "tuple"
  | .mapping .. => "dict"
  | .set .. => "set"

/-- The address of the object that is viewed. -/
def View.address? : View → Option Address
  | .list a _ => some a
  | .tuple a _ => some a
  | .mapping a _ => some a
  | .set a _ => some a
  | _ => none

/-- The value under a text key. -/
def field? (key : Text) (entries : List (Value × Value)) : Option Value :=
  entries.lookup (.text key)

namespace Heap

/-- The heap without objects. -/
def empty : Heap := ⟨#[]⟩

/-- The object at an address. -/
def object? (h : Heap) (a : Address) : Option Object := h.objects[a]?

/-- Adds an object. -/
def alloc (h : Heap) (o : Object) : Heap × Value := (⟨h.objects.push o⟩, .ref h.objects.size)

/-- Replaces the object at an address; without an object there, nothing changes. -/
def write (h : Heap) (a : Address) (o : Object) : Heap := ⟨h.objects.setIfInBounds a o⟩

/-- Looks up the object of a value.  An address without an object reads as null. -/
def view (h : Heap) : Value → View
  | .null => .null
  | .bool b => .bool b
  | .int n => .int n
  | .float x => .float x
  | .text t => .text t
  | .bytes bs => .bytes bs
  | .ref a =>
    match h.object? a with
    | none => .null
    | some (.list items) => .list a items
    | some (.tuple items) => .tuple a items
    | some (.mapping entries) => .mapping a entries
    | some (.set elements) => .set a elements

theorem lt_size_of_view {h : Heap} {v : Value} {a : Address}
    (ha : View.address? (h.view v) = some a) : a < h.objects.size := by
  cases v with
  | ref b =>
    rw [view] at ha
    split at ha <;> simp only [View.address?, Option.some.injEq, reduceCtorEq] at ha <;>
      subst ha <;> next ho => exact (Array.getElem?_eq_some_iff.1 ho).1
  | _ => simp [view, View.address?] at ha

/-- The value as a sequence, a list or a tuple, with its address. -/
def sequence? (h : Heap) (v : Value) : Option (Address × List Value) :=
  match h.view v with
  | .list a items => some (a, items)
  | .tuple a items => some (a, items)
  | _ => none

theorem lt_size_of_sequence? {h : Heap} {v : Value} {a : Address} {items : List Value}
    (hs : h.sequence? v = some (a, items)) : a < h.objects.size := by
  unfold sequence? at hs
  split at hs
  · next hv => exact lt_size_of_view (v := v) (by simp_all [View.address?])
  · next hv => exact lt_size_of_view (v := v) (by simp_all [View.address?])
  · simp at hs

/-! ### Walks -/

/-- How many objects are not in `path`. -/
def unvisited (h : Heap) (path : List Address) : Nat :=
  unseen (List.range h.objects.size) path

/-- Entering an object leaves fewer objects to enter. -/
theorem unvisited_cons_lt {h : Heap} {path : List Address} {a : Address}
    (ha : a < h.objects.size) (hp : a ∉ path) : h.unvisited (a :: path) < h.unvisited path :=
  unseen_cons_lt (List.mem_range.2 ha) hp

end Heap

end Sidebar.Raw
