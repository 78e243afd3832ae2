import Sidebar.Navigation
import Sidebar.Raw.Print
import Sidebar.Record.Error
import Sidebar.Text.Utf8
import Sidebar.Tree.OfRaw
import Sidebar.Violation

/-!
# Sidebar.Record.Check: records made from the values of their fields

Documents, categories, trees and the other records can be made directly from values, without the
short forms of a configuration.  A field that is not declared is ignored, one that has a standard
value may be left out, bytes are taken as UTF-8, and numbers without a fraction as integers.
-/

namespace Sidebar.Record

open Raw

/-- A value that has to be a text. -/
def text (h : Heap) (path : NodePath) (v : Value) : Checked Text :=
  match h.view v with
  | .text t => .ok t
  | .bytes bs =>
    match Utf8.decode bs with
    | .ok cs => .ok (Text.ofChars cs)
    | .error _ => .fail .badEncoding path
  | _ => .fail .notText path

/-- A text that is encodable and not empty. -/
def docId (h : Heap) (path : NodePath) (v : Value) : Checked Text :=
  match text h path v with
  | .error es => .error es
  | .ok t =>
    if t.hasSurrogate then .fail .badEncoding path
    else if t = [] then .fail .emptyText path
    else .ok t

/-- A value that is null or has to pass a check. -/
def nullable {α : Type} (h : Heap) (check : Value → Checked α) (v : Value) : Checked (Option α) :=
  if h.view v = .null then .ok none else (check v).map some

/-- The path of a field. -/
def fieldPath (path : NodePath) (name : Text) : NodePath := path ++ [.name name]

/-- A field that has to be given. -/
def required {α : Type} (path : NodePath) (name : Text) (entries : List (Value × Value))
    (check : NodePath → Value → Checked α) : Checked α :=
  match field? name entries with
  | none => .fail .missing (fieldPath path name)
  | some v => check (fieldPath path name) v

/-- A field that may be left out. -/
def optional {α : Type} (path : NodePath) (name : Text) (entries : List (Value × Value))
    (standard : α) (check : NodePath → Value → Checked α) : Checked α :=
  match field? name entries with
  | none => .ok standard
  | some v => check (fieldPath path name) v

/-- A value that has to be one text. -/
def literal (h : Heap) (expected : Text) (path : NodePath) (v : Value) : Checked Unit :=
  if h.view v = .text expected then .ok () else .fail (.notLiteral expected) path

/-- The elements of a list, a tuple or a set. -/
def elements? (h : Heap) (v : Value) : Option (List Value) :=
  match h.view v with
  | .list _ items => some items
  | .tuple _ items => some items
  | .set _ items => some items
  | _ => none

/-! ### Documents, categories and trees -/

/-- The fields of a document. -/
def doc (h : Heap) (path : NodePath) (entries : List (Value × Value)) : Checked Doc :=
  .both (fun _ d => d) (optional path "type" entries () (literal h "doc"))
    (.both Doc.mk (required path "id" entries (docId h)) (required path "label" entries (text h)))

/-- The type of an item, told by its entries. -/
def itemType (h : Heap) (path : NodePath) (entries : List (Value × Value)) : Checked NodeType :=
  match field? "type" entries with
  | none => .fail .noTag path
  | some v =>
    if h.view v = .text "doc" then .ok .doc
    else if h.view v = .text "category" then .ok .category
    else .fail (.unknownTag ((h.plain? v).getD [])) path

mutual

/-- The fields of a category that stands in the categories `ancestors`. -/
def categoryIn (h : Heap) (path : NodePath) (ancestors : List Address)
    (entries : List (Value × Value)) : Checked (Text × List Item) :=
  .both (fun _ c => c) (optional path "type" entries () (literal h "category"))
    (.both Prod.mk (required path "label" entries (text h))
      (match field? "items" entries with
      | none => .ok []
      | some v => itemsAt h (fieldPath path "items") ancestors v))
termination_by (h.unvisited ancestors, 3, 0)

/-- A sequence of items. -/
def itemsAt (h : Heap) (path : NodePath) (ancestors : List Address) (v : Value) :
    Checked (List Item) :=
  match elements? h v with
  | none => .fail .notSequence path
  | some vs => itemsFrom h path ancestors 0 vs
termination_by (h.unvisited ancestors, 2, 0)

/-- Items of which the first has number `i`. -/
def itemsFrom (h : Heap) (path : NodePath) (ancestors : List Address) (i : Nat)
    (vs : List Value) : Checked (List Item) :=
  match vs with
  | [] => .ok []
  | v :: vs =>
    .both List.cons (itemAt h (path.child i) ancestors v) (itemsFrom h path ancestors (i + 1) vs)
termination_by (h.unvisited ancestors, 1, vs.length)

/-- An item. -/
def itemAt (h : Heap) (path : NodePath) (ancestors : List Address) (v : Value) : Checked Item :=
  match hv : h.view v with
  | .mapping a entries =>
    match itemType h path entries with
    | .error es => .error es
    | .ok .doc => (doc h (fieldPath path "doc") entries).map .doc
    | .ok .category =>
      if ha : a ∈ ancestors then .fail .cyclic (fieldPath path "category")
      else
        have := Heap.unvisited_cons_lt
          (Heap.lt_size_of_view (h := h) (v := v) (a := a) (by rw [hv]; rfl)) ha
        (categoryIn h (fieldPath path "category") (a :: ancestors) entries).map fun c =>
          .category c.1 c.2
  | _ => .fail .notItem path
termination_by (h.unvisited ancestors, 1, 0)

end

/-- The fields of a category. -/
def category (h : Heap) (path : NodePath) (entries : List (Value × Value)) :
    Checked (Text × List Item) := categoryIn h path [] entries

/-- The step of a path that a key of a mapping makes. -/
def keyStep (h : Heap) (key : Value) : PathStep :=
  match h.view key with
  | .text t => .name t
  | .bool b => .index (if b then 1 else 0)
  | .int n =>
    if -Int.pow 2 63 ≤ n ∧ n < Int.pow 2 63 then .index n else .name ((h.print? key).getD [])
  | _ => .name ((h.print? key).getD [])

/-- The entries of the groups of a tree. -/
def groups (h : Heap) (path : NodePath) : List (Value × Value) → Checked (List Group)
  | [] => .ok []
  | (key, v) :: entries =>
    let here := path ++ [keyStep h key]
    .both List.cons
      (.both Prod.mk (text h (fieldPath here "[key]") key) (itemsAt h here [] v))
      (groups h path entries)

/-- The fields of a tree. -/
def tree (h : Heap) (path : NodePath) (entries : List (Value × Value)) : Checked Tree :=
  optional path "groups" entries (Tree.ofGroups []) fun path v =>
    match h.view v with
    | .mapping _ entries => (groups h path entries).map Tree.ofGroups
    | _ => .fail .notMapping path

/-- The fields of a validated tree.  Only validation makes one, so there is always a fault. -/
def validatedTree (h : Heap) (entries : List (Value × Value)) : Checked Tree :=
  let inner := required [] "tree" entries fun path v =>
    match h.view v with
    | .mapping _ entries => tree h path entries
    | _ => .fail (.notRecord "SidebarTree") path
  match inner with
  | .ok _ => .fail .unissued []
  | .error es => .error es

/-! ### Neighbours and violations -/

/-- The fields of the neighbours of a document. -/
def pagination (h : Heap) (entries : List (Value × Value)) : Checked Pagination :=
  let neighbour (path : NodePath) : Value → Checked (Option Doc) :=
    nullable h fun v =>
      match h.view v with
      | .mapping _ entries => doc h path entries
      | _ => .fail (.notRecord "DocNode") path
  .both Pagination.mk (optional [] "previous" entries none neighbour)
    (optional [] "next" entries none neighbour)

/-- The kind of a violation, given by its name. -/
def violationKind (h : Heap) (path : NodePath) (v : Value) : Checked ViolationKind :=
  let kinds := [ViolationKind.duplicateId, .emptyCategory, .unknownDocReference]
  match (text h path v).toOption.bind fun t => kinds.find? fun kind => kind.name = t with
  | some kind => .ok kind
  | none => .fail .notViolationKind path

/-- A number that has to be an integer. -/
def integer (path : NodePath) (x : Binary64) : Checked Int :=
  match x.toInt? with
  | some n => if -Int.pow 2 63 < n ∧ n < Int.pow 2 63 then .ok n else .fail .tooLarge path
  | none => if x.isFinite then .fail .fraction path else .fail .notFinite path

/-- A step of a node path: a text or an integer.  The faults of both readings are reported. -/
def pathStep (h : Heap) (path : NodePath) (v : Value) : Checked PathStep :=
  let asText := fieldPath path "str"
  let asInteger := fieldPath path "int"
  let neither (n : Checked Int) : Checked PathStep :=
    match n with
    | .ok n => .ok (.index n)
    | .error es => .error (⟨.notText, asText⟩ :: es)
  match h.view v with
  | .text t => .ok (.name t)
  | .int n => .ok (.index n)
  | .bool b => .ok (.index (if b then 1 else 0))
  | .float x => neither (integer asInteger x)
  | .bytes _ =>
    match text h asText v with
    | .ok t => .ok (.name t)
    | .error es => .error (es ++ [⟨.notIntegerText, asInteger⟩])
  | _ => neither (.fail .notInteger asInteger)

/-- Steps of which the first has number `i`. -/
def pathSteps (h : Heap) (path : NodePath) (i : Nat) : List Value → Checked (List PathStep)
  | [] => .ok []
  | v :: vs => .both List.cons (pathStep h (path.child i) v) (pathSteps h path (i + 1) vs)

/-- A node path. -/
def nodePath (h : Heap) (path : NodePath) (v : Value) : Checked NodePath :=
  match elements? h v with
  | none => .fail .notSequence path
  | some vs => pathSteps h path 0 vs

/-- The fields of a violation. -/
def violation (h : Heap) (entries : List (Value × Value)) : Checked Violation :=
  let nullableText (path : NodePath) : Value → Checked (Option Text) := nullable h (text h path)
  .both (fun kind make => make kind) (required [] "kind" entries (violationKind h))
    (.both (fun path make kind => make kind path) (required [] "path" entries (nodePath h))
      (.both (fun id make kind path => make kind path id)
        (optional [] "node_id" entries none nullableText)
        (.both (fun label make kind path id => make kind path id label)
          (optional [] "label" entries none nullableText)
          (.both (fun message first kind path id label =>
              Violation.mk kind path id label message first)
            (required [] "message" entries (text h))
            (optional [] "first_path" entries none fun path => nullable h (nodePath h path))))))

/-- Violations given one after the other; the first that has faults stops the rest. -/
def violations (h : Heap) : List Value → Checked (List Violation)
  | [] => .ok []
  | v :: vs =>
    match h.view v with
    | .mapping _ entries => do
      let first ← violation h entries
      let rest ← violations h vs
      pure (first :: rest)
    | _ => .fail (.notRecord "Violation") []

end Sidebar.Record
