import Sidebar.Record.Check

/-!
# Sidebar.Record.Models: declared records and the libraries that make them

Documents, categories and trees are declared by their fields: a name, a type and what stands for
the field when it is left out.  Which values a type takes, and how a record comes of a mapping, is
up to a library, which the declarations do not say.  `Library` is any such library and
`Library.Lax` what is relied on of one that takes values leniently: a list will do for a tuple, an
item is told by its `type`, and entries that no field is declared for are passed over.

Each law speaks of one declared type or of the fields of one record, however deep it stands in
others.  The checks of `Sidebar.Record.Check` are one library (`checks`).
-/

namespace Sidebar

namespace Record

open Raw

/-! ## Declarations -/

/-- The type that a field is declared with. -/
inductive FieldType
  /-- This text and no other. -/
  | literal (t : Text)
  | text
  /-- A text of at least one character. -/
  | nonEmptyText
  /-- A document or a category, as the field `type` tells. -/
  | item
  /-- A tuple of items. -/
  | items
  /-- A mapping from texts to tuples of items. -/
  | groups
deriving DecidableEq

/-- The records that are declared. -/
inductive Model
  | node (type : NodeType)
  | tree
deriving DecidableEq

/-- What values are made into.  A record has the data of its fields in the order in which these are
declared. -/
inductive Data
  | text (t : Text)
  | tuple (items : List Data)
  | mapping (entries : List (Text × Data))
  | record (model : Model) (fields : List Data)

/-- The data with a mapping copied, so that nothing can change it any more. -/
def Data.frozen : Data → Data
  | .mapping entries => .mapping (Keyed.ofEntries entries)
  | d => d

/-- There is nothing to copy where entries have been written one after the other. -/
theorem Data.frozen_ofEntries (entries : List (Text × Data)) :
    (Data.mapping (Keyed.ofEntries entries)).frozen = .mapping (Keyed.ofEntries entries) := by
  rw [frozen, Keyed.ofEntries_eq_self (Keyed.nodup_ofEntries entries)]

/-- A declared field. -/
structure Field where
  name : Text
  type : FieldType
  /-- What stands for the field when it is left out. -/
  standard : Option Data
  /-- What the field does with data of its type. -/
  after : Data → Data := id

/-- The field that tells the type of a node. -/
def typeField (type : NodeType) : Field :=
  { name := "type", type := .literal type.name, standard := some (.text type.name) }

def idField : Field := { name := "id", type := .nonEmptyText, standard := none }

def labelField : Field := { name := "label", type := .text, standard := none }

def itemsField : Field := { name := "items", type := .items, standard := some (.tuple []) }

/-- The groups of a tree are kept as a copy that nothing can change. -/
def groupsField : Field :=
  { name := "groups", type := .groups, standard := some (.mapping []), after := Data.frozen }

/-- The fields of a record, in the order in which they are declared. -/
def Model.fields : Model → List Field
  | .node .doc => [typeField .doc, idField, labelField]
  | .node .category => [typeField .category, labelField, itemsField]
  | .tree => [groupsField]

/-! ## Libraries -/

/-- A library of records: the data that it makes of a value where a type is declared, and the
record that it makes of entries.  It may refuse either. -/
structure Library where
  validate : Heap → FieldType → Value → Option Data
  construct : Heap → Model → List (Value × Value) → Option Data

namespace Library

/-- The data of a field, from the entries that a record is made of. -/
def fieldData (L : Library) (h : Heap) (entries : List (Value × Value)) (f : Field) :
    Option Data :=
  match field? f.name entries with
  | none => f.standard
  | some v => (L.validate h f.type v).map f.after

/-- What is known of a library that takes values leniently. -/
structure Lax (L : Library) : Prop where
  literal {h : Heap} {v : Value} {t : Text} (expected : Text) (hv : h.view v = .text t) :
    L.validate h (.literal expected) v = if t = expected then some (.text t) else none
  /-- Without a demand on its length, a text is taken as it is. -/
  text {h : Heap} {v : Value} {t : Text} (hv : h.view v = .text t) :
    L.validate h .text v = some (.text t)
  /-- The length is taken of the encoded text, and a lone surrogate has no encoding. -/
  nonEmptyText {h : Heap} {v : Value} {t : Text} (hv : h.view v = .text t) :
    L.validate h .nonEmptyText v =
      if t.hasSurrogate = true ∨ t = [] then none else some (.text t)
  /-- The record of an item is the one that its `type` tells. -/
  item {h : Heap} {v : Value} {a : Address} {entries : List (Value × Value)} {type : NodeType}
    (hv : h.view v = .mapping a entries)
    (ht : (field? "type" entries).map h.view = some (.text type.name)) :
    L.validate h .item v = L.construct h (.node type) entries
  /-- A list or a tuple is taken element by element. -/
  items {h : Heap} {v : Value} {a : Address} {nodes : List Value}
    (hs : h.sequence? v = some (a, nodes)) :
    L.validate h .items v = (nodes.mapM (L.validate h .item)).map .tuple
  /-- A mapping is taken entry by entry, one written after the other. -/
  groups {h : Heap} {v : Value} {a : Address} {entries : List (Value × Value)} {names : List Text}
    (hv : h.view v = .mapping a entries)
    (hn : entries.map (fun e => h.view e.1) = names.map .text) :
    L.validate h .groups v =
      (entries.mapM fun e => L.validate h .items e.2).map fun data =>
        .mapping (Keyed.ofEntries (names.zip data))
  /-- A record is made of its declared fields; other entries are passed over. -/
  construct (h : Heap) (model : Model) (entries : List (Value × Value)) :
    L.construct h model entries =
      (model.fields.mapM (L.fieldData h entries)).map (.record model)

end Library

end Record

/-! ## The data of documents, items and trees -/

open Record

/-- A document as data. -/
def Doc.data (d : Doc) : Data := .record (.node .doc) [.text "doc", .text d.id, .text d.label]

mutual

/-- An item as data. -/
def Item.data : Item → Data
  | .doc d => d.data
  | .category label items =>
    .record (.node .category) [.text "category", .text label, .tuple (Item.allData items)]

/-- Items as data. -/
def Item.allData : List Item → List Data
  | [] => []
  | x :: xs => x.data :: Item.allData xs

end

/-- A tree as data. -/
def Tree.data (t : Tree) : Data :=
  .record .tree [.mapping (t.groups.map fun g => (g.1, .tuple (Item.allData g.2)))]

theorem Tree.data_ofGroups (gs : List Group) :
    (ofGroups gs).data = .record .tree
      [.mapping (Keyed.ofEntries (gs.map fun g => (g.1, .tuple (Item.allData g.2))))] := by
  rw [Keyed.ofEntries_map (fun items => Data.tuple (Item.allData items))]
  rfl

/-- The checks of records, as a library. -/
def Record.checks : Library where
  validate h type v :=
    match type with
    | .literal t => (literal h t [] v).toOption.map fun _ => .text t
    | .text => (text h [] v).toOption.map .text
    | .nonEmptyText => (docId h [] v).toOption.map .text
    | .item => (itemAt h [] [] v).toOption.map Item.data
    | .items => (itemsAt h [] [] v).toOption.map fun xs => .tuple (Item.allData xs)
    | .groups =>
      match h.view v with
      | .mapping _ entries =>
        (groups h [] entries).toOption.map fun gs =>
          .mapping (Keyed.ofEntries (gs.map fun g => (g.1, .tuple (Item.allData g.2))))
      | _ => none
  construct h model entries :=
    match model with
    | .node .doc => (doc h [] entries).toOption.map Doc.data
    | .node .category =>
      (category h [] entries).toOption.map fun c => (Item.category c.1 c.2).data
    | .tree => (tree h [] entries).toOption.map Tree.data

end Sidebar
