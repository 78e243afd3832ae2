import Sidebar.Raw.Heap
import Sidebar.Number.Shortest
import Sidebar.Text.Quoted

/-!
# Sidebar.Raw.Print: values as they are shown in messages

Texts and bytes are shown quoted, numbers in their shortest notation, objects by their parts.  An
object that is met again inside itself is shown as dots.  An integer of more than 4300 digits
cannot be shown, and so nothing that holds one.
-/

namespace Sidebar.Raw

/-- Integers have to be below this, sign apart, to be shown or read: 4300 digits. -/
def showLimit : Nat := Nat.pow 10 4300

/-- Numbers are positional from `0.0001` to below `10 ^ 16`; exponents have two digits or more. -/
def floatLayout : Layout := ⟨-4, 16, 2⟩

/-- The parts with commas between them. -/
def commas (parts : List Text) : Text := List.intercalate ", " parts

namespace Heap

mutual

/-- Shows a value inside the objects `active`. -/
def printFrom (h : Heap) (active : List Address) (v : Value) : Option Text :=
  match hv : h.view v with
  | .null => some "None"
  | .bool b => some (if b then "True" else "False")
  | .int n => if n.natAbs < showLimit then some (Text.ofInt n) else none
  | .float x => some (floatLayout.number x)
  | .text t => some t.quoted
  | .bytes bs => some (Text.quotedBytes bs)
  | .list a items =>
    if ha : a ∈ active then some "[...]"
    else
      have := unvisited_cons_lt (lt_size_of_view (h := h) (v := v) (a := a) (by rw [hv]; rfl)) ha
      (printAll h (a :: active) items).map fun parts => "[" ++ commas parts ++ "]"
  | .tuple a items =>
    if ha : a ∈ active then some "(...)"
    else
      have := unvisited_cons_lt (lt_size_of_view (h := h) (v := v) (a := a) (by rw [hv]; rfl)) ha
      (printAll h (a :: active) items).map fun parts =>
        match parts with
        | [part] => "(" ++ part ++ ",)"
        | parts => "(" ++ commas parts ++ ")"
  | .mapping a entries =>
    if ha : a ∈ active then some "\x7b...\x7d"
    else
      have := unvisited_cons_lt (lt_size_of_view (h := h) (v := v) (a := a) (by rw [hv]; rfl)) ha
      (printEntries h (a :: active) entries).map fun parts => "\x7b" ++ commas parts ++ "\x7d"
  | .set a elements =>
    if ha : a ∈ active then some "set(...)"
    else
      have := unvisited_cons_lt (lt_size_of_view (h := h) (v := v) (a := a) (by rw [hv]; rfl)) ha
      (printAll h (a :: active) elements).map fun parts =>
        match parts with
        | [] => "set()"
        | parts => "\x7b" ++ commas parts ++ "\x7d"
termination_by (h.unvisited active, 0)

/-- Shows each of several values. -/
def printAll (h : Heap) (active : List Address) (vs : List Value) : Option (List Text) :=
  match vs with
  | [] => some []
  | v :: vs => do
    let part ← printFrom h active v
    let parts ← printAll h active vs
    pure (part :: parts)
termination_by (h.unvisited active, 1 + vs.length)

/-- Shows each entry of a mapping. -/
def printEntries (h : Heap) (active : List Address) (es : List (Value × Value)) :
    Option (List Text) :=
  match es with
  | [] => some []
  | (key, v) :: es => do
    let key ← printFrom h active key
    let part ← printFrom h active v
    let parts ← printEntries h active es
    pure ((key ++ ": " ++ part) :: parts)
termination_by (h.unvisited active, 1 + es.length)

end

/-- Shows a value; `none` when it holds an integer that is too long. -/
def print? (h : Heap) (v : Value) : Option Text := printFrom h [] v

/-- Shows a value, a text without its quotes. -/
def plain? (h : Heap) (v : Value) : Option Text :=
  match h.view v with
  | .text t => some t
  | _ => h.print? v

end Heap

end Sidebar.Raw
