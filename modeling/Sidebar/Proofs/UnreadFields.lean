import Sidebar.Proofs.Calls

/-!
# Sidebar.Proofs.UnreadFields: fields of nodes that are not read

Of a document its id and its label are read, of a category its label and its items, and nothing
else but the type.  `Heap.AgreeWhereRead` says that two heaps have the same objects except for other
fields of their mappings, which may lead anywhere.

* `toOption_nodeAt`, `toOption_listAt`: nodes and lists are read alike in both.
* `toOption_ofRaw`: a configuration is read as the same tree in both, or in neither.
-/

namespace Sidebar

open Raw

/-- The fields that are read of a node, besides its type. -/
def NodeType.fields : NodeType → List Text
  | .doc => ["id", "label"]
  | .category => ["label", "items"]

namespace Raw.Heap

variable {h t : Heap} {config v : Value} {path : NodePath} {ancestors : List Address}
  {entries entries' : List (Value × Value)}

/-- The entries have the same type, and the same values in the fields that are read of it. -/
def SameFields (h : Heap) (entries entries' : List (Value × Value)) : Prop :=
  field? "type" entries' = field? "type" entries ∧
    ∀ type : NodeType, h.HasType type.name entries →
      ∀ key ∈ type.fields, field? key entries' = field? key entries

/-- The heaps have the same configuration, and the same objects but for fields that are not
read. -/
structure AgreeWhereRead (h t : Heap) (config : Value) : Prop where
  config : t.view config = h.view config
  objects : ∀ a, t.object? a = h.object? a ∨
    ∃ entries entries', h.object? a = some (.mapping entries) ∧
      t.object? a = some (.mapping entries') ∧ h.SameFields entries entries'

/-- A value is viewed alike in two heaps: as the same, or as mappings with the same fields. -/
inductive ViewedAlike (h : Heap) : View → View → Prop
  | same (found : View) : ViewedAlike h found found
  | mapping {a : Address} {entries entries' : List (Value × Value)}
      (hf : h.SameFields entries entries') :
      ViewedAlike h (.mapping a entries) (.mapping a entries')

theorem AgreeWhereRead.view (hagree : h.AgreeWhereRead t config) (v : Value) :
    h.ViewedAlike (h.view v) (t.view v) := by
  cases v with
  | ref a =>
    rcases hagree.objects a with ho | ⟨entries, entries', ho, ho', hf⟩
    · rw [Heap.view, Heap.view, ho]
      exact .same _
    · rw [Heap.view, Heap.view, ho, ho']
      exact .mapping hf
  | _ => exact .same _

/-! ## Single nodes -/

section Alike

variable (hagree : ∀ v, h.ViewedAlike (h.view v) (t.view v))

include hagree

theorem given?_of_alike {key : Text} (hf : field? key entries' = field? key entries) :
    t.given? key entries' = h.given? key entries := by
  rw [given?, given?, hf]
  cases field? key entries with
  | none => rfl
  | some v =>
    have hv := hagree v
    rw [Option.filter_some, Option.filter_some]
    generalize h.view v = found, t.view v = found' at hv
    cases hv with
    | same => rfl
    | mapping => rfl

theorem hasType_of_alike {type : Text} (hf : field? "type" entries' = field? "type" entries) :
    t.HasType type entries' ↔ h.HasType type entries := by
  rw [HasType, HasType, hf]
  cases field? "type" entries with
  | none => exact Iff.rfl
  | some v =>
    have hv := hagree v
    rw [Option.map_some, Option.map_some]
    generalize h.view v = found, t.view v = found' at hv
    cases hv with
    | same => exact Iff.rfl
    | mapping => simp

theorem toOption_typeOfEntries (hf : field? "type" entries' = field? "type" entries) :
    (NodeType.ofEntries t path entries').toOption =
      (NodeType.ofEntries h path entries).toOption := by
  refine Option.ext fun type => ?_
  rw [toOption_eq_some_iff, toOption_eq_some_iff, typeOfEntries_eq_ok_iff, typeOfEntries_eq_ok_iff]
  exact hasType_of_alike hagree hf

theorem toOption_labelOf {id : Text} (hf : field? "label" entries' = field? "label" entries) :
    (Doc.labelOf t path id entries').toOption = (Doc.labelOf h path id entries).toOption := by
  rw [Doc.labelOf, Doc.labelOf, given?_of_alike hagree hf]
  cases h.given? "label" entries with
  | none => rfl
  | some v =>
    have hv := hagree v
    rw [Option.map_some, Option.map_some]
    generalize h.view v = found, t.view v = found' at hv
    cases hv with
    | same => rfl
    | mapping => rfl

theorem toOption_docOfEntries (hi : field? "id" entries' = field? "id" entries)
    (hl : field? "label" entries' = field? "label" entries) :
    (Doc.ofEntries t path entries').toOption = (Doc.ofEntries h path entries).toOption := by
  rw [Doc.ofEntries, Doc.ofEntries, given?_of_alike hagree hi]
  cases h.given? "id" entries with
  | none => rfl
  | some v =>
    have hv := hagree v
    dsimp only
    generalize h.view v = found, t.view v = found' at hv
    cases hv with
    | mapping => rfl
    | same found =>
      cases found with
      | text id =>
        dsimp only
        by_cases hb : id.isBlank = true
        · rw [if_pos hb, if_pos hb]
          rfl
        · rw [if_neg hb, if_neg hb]
          have hlabel : (Doc.labelOf t path id entries').toOption =
            (Doc.labelOf h path id entries).toOption := toOption_labelOf hagree hl
          cases hx : Doc.labelOf h path id entries <;> cases hy : Doc.labelOf t path id entries' <;>
            rw [hx, hy] at hlabel <;> cases hlabel <;> rfl
      | _ => rfl

theorem toOption_categoryHead (hl : field? "label" entries' = field? "label" entries)
    (hi : field? "items" entries' = field? "items" entries) :
    (categoryHead t path entries').toOption = (categoryHead h path entries).toOption := by
  rw [categoryHead, categoryHead, given?_of_alike hagree hl, hi]
  cases h.given? "label" entries with
  | none => rfl
  | some v =>
    have hv := hagree v
    rw [Option.map_some, Option.map_some]
    generalize h.view v = found, t.view v = found' at hv
    cases hv with
    | same => rfl
    | mapping => rfl

/-! ## Lists of nodes -/

theorem sequence?_of_alike (v : Value) : t.sequence? v = h.sequence? v := by
  have hv := hagree v
  rw [sequence?, sequence?]
  generalize h.view v = found, t.view v = found' at hv
  cases hv with
  | same => rfl
  | mapping => rfl

omit hagree in
theorem toOption_nodesFrom
    (hnode : ∀ path w, (Item.nodeAt t path ancestors w).toOption =
      (Item.nodeAt h path ancestors w).toOption) (i : Nat) (nodes : List Value) :
    (Item.nodesFrom t path ancestors i nodes).toOption =
      (Item.nodesFrom h path ancestors i nodes).toOption := by
  induction nodes generalizing i with
  | nil => rw [Item.nodesFrom, Item.nodesFrom]
  | cons w nodes ih =>
    simp only [nodesFrom_cons, toOption_bind, toOption_map, hnode, ih]

theorem toOption_listAt
    (ih : ∀ a < h.objects.size, a ∉ ancestors → ∀ path w,
      (Item.nodeAt t path (a :: ancestors) w).toOption =
        (Item.nodeAt h path (a :: ancestors) w).toOption) :
    (Item.listAt t path ancestors v).toOption = (Item.listAt h path ancestors v).toOption := by
  have ht := sequence?_of_alike hagree v
  cases hs : h.sequence? v with
  | none =>
    rw [listAt_of_other hs, listAt_of_other (ht.trans hs)]
    rfl
  | some s =>
    obtain ⟨a, nodes⟩ := s
    rw [listAt_of_sequence? hs, listAt_of_sequence? (ht.trans hs)]
    by_cases ha : a ∈ ancestors
    · rw [if_pos ha, if_pos ha]
    · rw [if_neg ha, if_neg ha]
      exact toOption_nodesFrom (ih a (lt_size_of_sequence? hs) ha) 0 nodes

/-- A mapping is read alike from entries with the same fields. -/
theorem toOption_nodeAt_mapping {a : Address} (hv : h.view v = .mapping a entries)
    (hv' : t.view v = .mapping a entries') (hf : h.SameFields entries entries')
    (ih : ∀ a < h.objects.size, a ∉ ancestors → ∀ path w,
      (Item.listAt t path (a :: ancestors) w).toOption =
        (Item.listAt h path (a :: ancestors) w).toOption) :
    (Item.nodeAt t path ancestors v).toOption = (Item.nodeAt h path ancestors v).toOption := by
  have htype : ∀ {type}, t.HasType type entries' ↔ h.HasType type entries :=
    hasType_of_alike hagree hf.1
  by_cases ha : a ∈ ancestors
  · rw [nodeAt_of_mem hv ha, nodeAt_of_mem hv' ha]
  by_cases hc : h.HasType "category" entries
  · have hfields := hf.2 .category hc
    rw [nodeAt_of_category hv ha hc, nodeAt_of_category hv' ha (htype.2 hc), toOption_bind,
      toOption_bind, toOption_categoryHead hagree (hfields _ (by decide)) (hfields _ (by decide))]
    simp only [toOption_map, ih a (lt_size_of_mapping hv) ha]
  · rw [nodeAt_of_not_category hv ha hc, nodeAt_of_not_category hv' ha fun hc' => hc (htype.1 hc'),
      toOption_bind, toOption_bind, toOption_typeOfEntries hagree hf.1]
    refine Option.bind_congr fun type htype => ?_
    -- the type is that of a document
    have hd := typeOfEntries_eq_ok_iff.1 (toOption_eq_some_iff.1 htype)
    cases type with
    | category => exact absurd hd hc
    | doc =>
      have hfields := hf.2 .doc hd
      rw [toOption_map, toOption_map,
        toOption_docOfEntries hagree (hfields _ (by decide)) (hfields _ (by decide))]

theorem toOption_nodeAt
    (ih : ∀ a < h.objects.size, a ∉ ancestors → ∀ path w,
      (Item.listAt t path (a :: ancestors) w).toOption =
        (Item.listAt h path (a :: ancestors) w).toOption) :
    (Item.nodeAt t path ancestors v).toOption = (Item.nodeAt h path ancestors v).toOption := by
  have hview := hagree v
  generalize hv : h.view v = found, hv' : t.view v = found' at hview
  cases hview with
  | mapping hf => exact toOption_nodeAt_mapping hagree hv hv' hf ih
  | same found =>
    by_cases hm : ∃ a entries, found = .mapping a entries
    · obtain ⟨a, entries, rfl⟩ := hm
      exact toOption_nodeAt_mapping hagree hv hv' ⟨rfl, fun _ _ _ _ => rfl⟩ ih
    · push Not at hm
      rw [nodeAt_of_other (hv'.symm ▸ hm), nodeAt_of_other (hv.symm ▸ hm), hv, hv']
      cases found with
      | text id =>
        dsimp only
        rw [toOption_map, toOption_map, Doc.ofId, Doc.ofId, toOption_docOfEntries hagree rfl rfl]
      | mapping a entries => exact absurd rfl (hm a entries)
      | _ => rfl

theorem toOption_reading (ancestors : List Address) :
    (∀ path v, (Item.listAt t path ancestors v).toOption =
        (Item.listAt h path ancestors v).toOption) ∧
      ∀ path v, (Item.nodeAt t path ancestors v).toOption =
        (Item.nodeAt h path ancestors v).toOption := by
  induction ancestors using ancestors_induction (h := h) with
  | step ancestors ih =>
    exact ⟨fun _ _ => toOption_listAt hagree fun a hlt ha => (ih a hlt ha).2,
      fun _ _ => toOption_nodeAt hagree fun a hlt ha => (ih a hlt ha).1⟩

theorem toOption_listOf (entries : List (Value × Value)) :
    (Group.listOf t entries).toOption = (Group.listOf h entries).toOption := by
  induction entries with
  | nil => rfl
  | cons e entries ih =>
    obtain ⟨key, v⟩ := e
    by_cases hk : ∃ name, key = .text name ∧ name ≠ []
    · obtain ⟨name, rfl, hn⟩ := hk
      rw [listOf_cons rfl hn, listOf_cons rfl hn, toOption_bind, toOption_bind,
        (toOption_reading hagree []).1]
      simp only [toOption_map, ih]
    · rw [listOf_of_no_name hk, listOf_of_no_name hk]
      rfl

end Alike

/-- **Fields that are not read make no difference**: whatever stands in them, the same tree is read,
or none. -/
theorem toOption_ofRaw (hagree : h.AgreeWhereRead t config) :
    (Tree.ofRaw t config).toOption = (Tree.ofRaw h config).toOption := by
  rw [Tree.ofRaw, Tree.ofRaw, hagree.config]
  generalize h.view config = found
  cases found with
  | mapping a entries =>
    dsimp only
    rw [toOption_map, toOption_map, toOption_listOf hagree.view]
  | _ => rfl

end Raw.Heap

end Sidebar
