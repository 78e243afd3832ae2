import Sidebar.Raw.Key
import Sidebar.Raw.Print

/-!
# Sidebar.Raw.Edit: changing objects in place

A slot is a place in an object: an index in a list or another sequence, or a key of a mapping.
Because objects have an identity, a change is seen wherever the object stands, and putting the
object that is found at one place into a slot makes two places share it.  Only lists and mappings
can be changed; the slots of other sequences can be read.
-/

namespace Sidebar.Raw

/-- What has its parts in order. -/
inductive Sequence
  | list
  | tuple
  | text
  | bytes
deriving DecidableEq

/-- Why a slot is not read or changed.  `type` is the name of the type of the object. -/
inductive EditError
  /-- The mapping has no such key. -/
  | noKey (shown : Text)
  /-- The slot is no key, because of a part of type `part`. -/
  | notKey (part : Text)
  /-- The sequence has no such index. -/
  | noIndex (sequence : Sequence)
  /-- The list that is to be changed has no such index. -/
  | noIndexToChange
  | indexTooLarge
  /-- The slot is no index, being of type `slot`. -/
  | notIndex (sequence : Sequence) (slot : Text)
  | noSlots (type : Text)
  | noAssignment (type : Text)
  /-- Nothing can be taken out of the object; `indexed` when it was asked for by an index and the
  object has parts. -/
  | noDeletion (type : Text) (indexed : Bool)
  | noAppending (type : Text)
  /-- The path of the slot is empty. -/
  | noSlotGiven
deriving DecidableEq

/-- The wording of an index that a sequence does not have. -/
def Sequence.noIndexMessage : Sequence → Text
  | .list => "list index out of range"
  | .tuple => "tuple index out of range"
  | .text => "string index out of range"
  | .bytes => "index out of range"

/-- The wording of a slot that is no index. -/
def Sequence.notIndexMessage (slot : Text) : Sequence → Text
  | .list => "list indices must be integers or slices, not " ++ slot
  | .tuple => "tuple indices must be integers or slices, not " ++ slot
  | .text => "string indices must be integers, not " ++ slot.quoted
  | .bytes => "byte indices must be integers or slices, not " ++ slot

/-- The wording of an error. -/
def EditError.message : EditError → Text
  | .noKey shown => shown
  | .notKey part => "unhashable type: " ++ part.quoted
  | .noIndex sequence => sequence.noIndexMessage
  | .noIndexToChange => "list assignment index out of range"
  | .indexTooLarge => "cannot fit 'int' into an index-sized integer"
  | .notIndex sequence slot => sequence.notIndexMessage slot
  | .noSlots type => type.quoted ++ " object is not subscriptable"
  | .noAssignment type => type.quoted ++ " object does not support item assignment"
  | .noDeletion type indexed =>
    let verb : Text := if indexed then "doesn't" else "does not"
    type.quoted ++ " object " ++ verb ++ " support item deletion"
  | .noAppending type => type.quoted ++ " object has no attribute 'append'"
  | .noSlotGiven => "list index out of range"

/-- The parts of a sequence.  Those of a text are texts of one code point, those of bytes are
integers. -/
def View.parts? : View → Option (Sequence × List Value)
  | .list _ items => some (.list, items)
  | .tuple _ items => some (.tuple, items)
  | .text t => some (.text, t.map fun c => .text [c])
  | .bytes bs => some (.bytes, bs.map fun b => .int b.toNat)
  | _ => none

/-- The object has parts that cannot be replaced. -/
def View.isFixed : View → Bool
  | .tuple .. => true
  | .set .. => true
  | .text _ => true
  | .bytes _ => true
  | _ => false

/-- An index is below this, sign apart. -/
def indexLimit : Int := Int.pow 2 63

/-- The integer is beyond every index. -/
def isTooLarge (i : Int) : Bool := i < -indexLimit || indexLimit ≤ i

/-- The position from the start that an index means among `size` parts.  A negative one counts
from the end. -/
def position? (size : Nat) (i : Int) : Option Nat :=
  let j := if i < 0 then i + size else i
  if 0 ≤ j ∧ j < size then some j.toNat else none

theorem position?_lt {size : Nat} {i : Int} {j : Nat} (h : position? size i = some j) :
    j < size := by
  unfold position? at h
  dsimp only at h
  generalize (if i < 0 then i + (size : Int) else i) = k at h
  split at h
  · next hk =>
    rw [← Option.some.inj h]
    omega
  · simp at h

namespace Heap

/-- The position that a slot means in a sequence of `size` parts; `missing` is the error of an
index that is not there. -/
def position (h : Heap) (sequence : Sequence) (size : Nat) (missing : EditError) (slot : Value) :
    Except EditError Nat :=
  match (h.view slot).index? with
  | none => .error (.notIndex sequence (h.view slot).typeName)
  | some i =>
    if isTooLarge i then .error .indexTooLarge
    else
      match position? size i with
      | some j => .ok j
      | none => .error missing

/-- A slot as a key of a mapping. -/
def key (h : Heap) (slot : Value) : Except EditError Value :=
  match h.keyObstacle? slot with
  | some part => .error (.notKey part)
  | none => .ok slot

/-- The error of a key that a mapping does not have. -/
def missingKey (h : Heap) (key : Value) : EditError := .noKey ((h.print? key).getD [])

/-- The error of a change to an object that cannot be changed. -/
def refusal (h : Heap) (found : View) (slot : Value) (error : Bool → EditError) : EditError :=
  match (h.view slot).index? with
  | none => error false
  | some i => if found.isFixed && isTooLarge i then .indexTooLarge else error found.isFixed

/-- The value in a slot of the object of `v`. -/
def getSlot (h : Heap) (v : Value) (slot : Value) : Except EditError Value :=
  match h.view v with
  | .mapping _ entries =>
    match h.key slot with
    | .error e => .error e
    | .ok key =>
      match h.lookupKey key entries with
      | some w => .ok w
      | none => .error (h.missingKey key)
  | found =>
    match found.parts? with
    | none => .error (.noSlots found.typeName)
    | some (sequence, parts) =>
      match h.position sequence parts.length (.noIndex sequence) slot with
      | .error e => .error e
      | .ok j => .ok (parts.getD j .null)

/-- The value that is found through slots, one after the other. -/
def getPath (h : Heap) (v : Value) : List Value → Except EditError Value
  | [] => .ok v
  | slot :: slots =>
    match h.getSlot v slot with
    | .ok w => h.getPath w slots
    | .error e => .error e

/-- Puts `w` into a slot of the object of `v`. -/
def setSlot (h : Heap) (v : Value) (slot : Value) (w : Value) : Except EditError Heap :=
  match h.view v with
  | .mapping a entries =>
    match h.key slot with
    | .error e => .error e
    | .ok key => .ok (h.write a (.mapping (h.putKey key w entries)))
  | .list a items =>
    match h.position .list items.length .noIndexToChange slot with
    | .error e => .error e
    | .ok j => .ok (h.write a (.list (items.set j w)))
  | found => .error (h.refusal found slot fun _ => .noAssignment found.typeName)

/-- Takes a slot out of the object of `v`. -/
def deleteSlot (h : Heap) (v : Value) (slot : Value) : Except EditError Heap :=
  match h.view v with
  | .mapping a entries =>
    match h.key slot with
    | .error e => .error e
    | .ok key =>
      if (h.lookupKey key entries).isSome then .ok (h.write a (.mapping (h.eraseKey key entries)))
      else .error (h.missingKey key)
  | .list a items =>
    match h.position .list items.length .noIndexToChange slot with
    | .error e => .error e
    | .ok j => .ok (h.write a (.list (items.eraseIdx j)))
  | found => .error (h.refusal found slot (.noDeletion found.typeName))

/-- Adds `w` at the end of the list `v`. -/
def append (h : Heap) (v : Value) (w : Value) : Except EditError Heap :=
  match h.view v with
  | .list a items => .ok (h.write a (.list (items ++ [w])))
  | found => .error (.noAppending found.typeName)

/-- Applies a change to the last slot of a path, in the object that the slots before it lead to. -/
def atPath (h : Heap) (v : Value) (path : List Value)
    (change : Heap → Value → Value → Except EditError Heap) : Except EditError Heap :=
  match h.getPath v path.dropLast, path.getLast? with
  | .error e, _ => .error e
  | .ok _, none => .error .noSlotGiven
  | .ok w, some slot => change h w slot

end Heap

end Sidebar.Raw
