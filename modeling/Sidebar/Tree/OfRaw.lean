import Sidebar.Label
import Sidebar.Raw.Print
import Sidebar.Tree.Basic
import Sidebar.Tree.SchemaError

/-!
# Sidebar.Tree.OfRaw: reading a configuration

A configuration is a mapping from group names to lists of nodes.  A node is a text, short for a
document with that id, or a mapping whose `type` says whether it is a document or a category.
Objects that are shared between places are read at each of them; a list or a category that is
reached from itself is an error.  The error is the first one in the order of the configuration,
which can be nested to any depth.
-/

namespace Sidebar

open Raw

namespace Raw.Heap

/-- The value under a key of a mapping, unless it is null. -/
def given? (h : Heap) (key : Text) (entries : List (Value × Value)) : Option Value :=
  (field? key entries).filter fun v => h.view v ≠ .null

/-- The error of a fault that shows a value. -/
def showing (h : Heap) (path : NodePath) (fault : Text → SchemaFault) (v : Value) : ConfigError :=
  match h.print? v with
  | some shown => .schema ⟨path, fault shown⟩
  | none => .unshowable

end Raw.Heap

/-- What a node is. -/
inductive NodeType
  | doc
  | category
deriving DecidableEq

/-- How a configuration writes a type. -/
def NodeType.name : NodeType → Text
  | .doc => "doc"
  | .category => "category"

/-- The type that the entries of a node give. -/
def NodeType.ofEntries (h : Heap) (path : NodePath) (entries : List (Value × Value)) :
    Except ConfigError NodeType :=
  match h.given? "type" entries with
  | none => .error (.schema ⟨path, .noType⟩)
  | some v =>
    if h.view v = .text "doc" then .ok .doc
    else if h.view v = .text "category" then .ok .category
    else .error (h.showing path .unknownType v)

namespace Doc

/-- The label that the entries of a document give, or the one made from its id. -/
def labelOf (h : Heap) (path : NodePath) (id : Text) (entries : List (Value × Value)) :
    Except ConfigError Text :=
  match (h.given? "label" entries).map h.view with
  | none => .ok (Label.ofId id)
  | some (.text label) => .ok label
  | some found => .error (.schema ⟨path, .docLabel found.typeName⟩)

/-- Makes the record of a document.  As the libraries of records do, it refuses an id that holds a
lone surrogate. -/
def record (id label : Text) : Except ConfigError Doc :=
  if id.hasSurrogate then .error .surrogateId else .ok ⟨id, label⟩

/-- Reads the entries of a document. -/
def ofEntries (h : Heap) (path : NodePath) (entries : List (Value × Value)) :
    Except ConfigError Doc :=
  match h.given? "id" entries with
  | none => .error (.schema ⟨path, .noId⟩)
  | some v =>
    match h.view v with
    | .text id =>
      if id.isBlank then .error (h.showing path .badId v)
      else
        match labelOf h path id entries with
        | .error e => .error e
        | .ok label => record id label
    | _ => .error (h.showing path .badId v)

/-- Reads the short form of a document, its id. -/
def ofId (h : Heap) (path : NodePath) (id : Text) : Except ConfigError Doc :=
  ofEntries h path [(.text "id", .text id)]

end Doc

/-- Reads the label of a category and finds its items. -/
def categoryHead (h : Heap) (path : NodePath) (entries : List (Value × Value)) :
    Except ConfigError (Text × Value) :=
  match (h.given? "label" entries).map h.view with
  | none => .error (.schema ⟨path, .noLabel⟩)
  | some (.text label) =>
    match field? "items" entries with
    | none => .error (.schema ⟨path, .noItems label⟩)
    | some items => .ok (label, items)
  | some found => .error (.schema ⟨path, .categoryLabel found.typeName⟩)

namespace Item

mutual

/-- Reads the value that should be a list of nodes.  `ancestors` are the lists and categories that
it stands in. -/
def listAt (h : Heap) (path : NodePath) (ancestors : List Address) (v : Value) :
    Except ConfigError (List Item) :=
  match hs : h.sequence? v with
  | none => .error (.schema ⟨path, .itemsNotList (h.view v).typeName⟩)
  | some (a, nodes) =>
    if ha : a ∈ ancestors then .error (.schema ⟨path, .itemsInItself⟩)
    else
      have := Heap.unvisited_cons_lt (Heap.lt_size_of_sequence? hs) ha
      nodesFrom h path (a :: ancestors) 0 nodes
termination_by (h.unvisited ancestors, 0, 0)

/-- Reads nodes of which the first has number `i`. -/
def nodesFrom (h : Heap) (path : NodePath) (ancestors : List Address) (i : Nat)
    (nodes : List Value) : Except ConfigError (List Item) :=
  match nodes with
  | [] => .ok []
  | v :: nodes =>
    match nodeAt h (path.child i) ancestors v with
    | .error e => .error e
    | .ok item =>
      match nodesFrom h path ancestors (i + 1) nodes with
      | .error e => .error e
      | .ok items => .ok (item :: items)
termination_by (h.unvisited ancestors, 2, nodes.length)

/-- Reads a node. -/
def nodeAt (h : Heap) (path : NodePath) (ancestors : List Address) (v : Value) :
    Except ConfigError Item :=
  match hv : h.view v with
  | .text id => (Doc.ofId h path id).map .doc
  | .mapping a entries =>
    if ha : a ∈ ancestors then .error (.schema ⟨path, .nodeInItself⟩)
    else
      match NodeType.ofEntries h path entries with
      | .error e => .error e
      | .ok .doc => (Doc.ofEntries h path entries).map .doc
      | .ok .category =>
        match categoryHead h path entries with
        | .error e => .error e
        | .ok (label, items) =>
          have := Heap.unvisited_cons_lt
            (Heap.lt_size_of_view (h := h) (v := v) (a := a) (by rw [hv]; rfl)) ha
          (listAt h path (a :: ancestors) items).map (.category label)
  | found => .error (.schema ⟨path, .nodeNotMapping found.typeName⟩)
termination_by (h.unvisited ancestors, 1, 0)

end

end Item

/-- Reads the entries of a configuration. -/
def Group.listOf (h : Heap) : List (Value × Value) → Except ConfigError (List Group)
  | [] => .ok []
  | (key, v) :: entries =>
    match h.view key with
    | .text name =>
      if name = [] then .error (h.showing [] .groupName key)
      else
        match Item.listAt h (.ofGroup name) [] v with
        | .error e => .error e
        | .ok items =>
          match listOf h entries with
          | .error e => .error e
          | .ok groups => .ok ((name, items) :: groups)
    | _ => .error (h.showing [] .groupName key)

/-- Reads a configuration. -/
def Tree.ofRaw (h : Heap) (v : Value) : Except ConfigError Tree :=
  match h.view v with
  | .mapping _ entries => (Group.listOf h entries).map Tree.ofGroups
  | found => .error (.schema ⟨[], .rootNotMapping found.typeName⟩)

end Sidebar
