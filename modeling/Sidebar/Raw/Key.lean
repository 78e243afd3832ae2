import Sidebar.Raw.Heap

/-!
# Sidebar.Raw.Key: the keys of mappings and the elements of sets

Two keys are the same when they are equal, where numbers are compared by value, whatever their
type, and the truth values count as one and zero.  What can change in place is no key, and neither
is a tuple that holds such a thing.  The elements of a set are keys, too.  Main statements: writing
a key that a mapping has keeps the key as it was first written, and its place (`keys_putKey`);
adding elements never brings the same one twice into a set (`distinct_addElement`).
-/

namespace Sidebar.Raw

/-- The integer that an integer or a truth value is. -/
def View.index? : View → Option Int
  | .bool b => some (if b then 1 else 0)
  | .int n => some n
  | _ => none

/-- The integer that a number equals. -/
def View.integer? : View → Option Int
  | .float x => x.toInt?
  | v => v.index?

namespace Heap

mutual

/-- The keys are the same; `active` are the tuples that the first one stands in. -/
def sameKeyIn (h : Heap) (active : List Address) (v w : Value) : Bool :=
  match hv : h.view v, h.view w with
  | .tuple a xs, .tuple _ ys =>
    if ha : a ∈ active then false
    else
      have := unvisited_cons_lt (lt_size_of_view (h := h) (v := v) (a := a) (by rw [hv]; rfl)) ha
      sameKeysIn h (a :: active) xs ys
  | .float .nan, _ => false
  | x, y =>
    match x.integer?, y.integer? with
    | some m, some n => m == n
    | _, _ => v == w
termination_by (h.unvisited active, 0)

/-- The keys of one list are the same as those of the other, one by one. -/
def sameKeysIn (h : Heap) (active : List Address) (vs ws : List Value) : Bool :=
  match vs, ws with
  | [], [] => true
  | v :: vs, w :: ws => sameKeyIn h active v w && sameKeysIn h active vs ws
  | _, _ => false
termination_by (h.unvisited active, 1 + vs.length)

end

/-- The keys are the same. -/
def sameKey (h : Heap) (v w : Value) : Bool := h.sameKeyIn [] v w

mutual

/-- What keeps a value from being a key, by the name of its type; `active` are the tuples that the
value stands in. -/
def obstacleIn (h : Heap) (active : List Address) (v : Value) : Option Text :=
  match hv : h.view v with
  | .tuple a xs =>
    if ha : a ∈ active then none
    else
      have := unvisited_cons_lt (lt_size_of_view (h := h) (v := v) (a := a) (by rw [hv]; rfl)) ha
      firstObstacleIn h (a :: active) xs
  | .list a items => some (View.list a items).typeName
  | .mapping a entries => some (View.mapping a entries).typeName
  | .set a elements => some (View.set a elements).typeName
  | _ => none
termination_by (h.unvisited active, 0)

/-- What keeps the first of several values that is no key from being one. -/
def firstObstacleIn (h : Heap) (active : List Address) (vs : List Value) : Option Text :=
  match vs with
  | [] => none
  | v :: vs =>
    match obstacleIn h active v with
    | some type => some type
    | none => firstObstacleIn h active vs
termination_by (h.unvisited active, 1 + vs.length)

end

/-- What keeps a value from being a key, by the name of its type. -/
def keyObstacle? (h : Heap) (v : Value) : Option Text := h.obstacleIn [] v

/-! ### Entries by key -/

/-- The value under a key. -/
def lookupKey (h : Heap) (key : Value) (entries : List (Value × Value)) : Option Value :=
  (entries.find? fun e => h.sameKey e.1 key).map (·.2)

/-- Writes a value under a key; a new key stands behind the others. -/
def putKey (h : Heap) (key value : Value) : List (Value × Value) → List (Value × Value)
  | [] => [(key, value)]
  | e :: es => if h.sameKey e.1 key then (e.1, value) :: es else e :: putKey h key value es

/-- Takes a key and its value out. -/
def eraseKey (h : Heap) (key : Value) (entries : List (Value × Value)) : List (Value × Value) :=
  entries.eraseP fun e => h.sameKey e.1 key

theorem keys_putKey (h : Heap) (key value : Value) (es : List (Value × Value)) :
    (h.putKey key value es).map (·.1) =
      if (h.lookupKey key es).isSome then es.map (·.1) else es.map (·.1) ++ [key] := by
  induction es with
  | nil => rfl
  | cons e es ih =>
    rw [putKey, lookupKey, List.find?_cons]
    cases hk : h.sameKey e.1 key with
    | true => simp
    | false =>
      rw [if_neg (by simp), List.map_cons, ih]
      simp only [lookupKey, Option.isSome_map, List.map_cons]
      split <;> rfl

/-! ### Elements -/

/-- Adds an element to a set that does not have it. -/
def addElement (h : Heap) (element : Value) (elements : List Value) : List Value :=
  if elements.any fun e => h.sameKey e element then elements else elements ++ [element]

/-- No element is the same as one before it. -/
def Distinct (h : Heap) (elements : List Value) : Prop :=
  elements.Pairwise fun v w => h.sameKey v w = false

theorem distinct_nil (h : Heap) : h.Distinct [] := List.Pairwise.nil

theorem distinct_addElement {h : Heap} {elements : List Value} (hd : h.Distinct elements)
    (element : Value) : h.Distinct (h.addElement element elements) := by
  unfold addElement
  split
  · exact hd
  · next hn =>
    refine List.pairwise_append.2 ⟨hd, List.pairwise_singleton _ _, fun v hv w hw => ?_⟩
    rw [List.mem_singleton.1 hw]
    exact Bool.eq_false_iff.2 fun hs => hn (List.any_eq_true.2 ⟨v, hv, hs⟩)

end Heap

end Sidebar.Raw
