import Sidebar.Proofs.Entries
import Sidebar.Proofs.Shown

/-!
# Sidebar.Proofs.Unfolding: configurations without the identity of their objects

`Heap.unfoldItems` and `Heap.unfoldNode` say what a walk meets from a value on: the lists and
categories that it enters are spelled out at each place where they stand, so nothing is said of
which of them are the same object; what is not entered stays as it is.

* `printFrom_eq_of_extends`: what a value looks like does not change when objects are added.
* `ofRaw_eq_of_unfoldConfig?_eq`: configurations with the same unfolding are read alike.
-/

namespace Sidebar.Raw

/-- What a walk meets. -/
inductive Unfolding
  /-- A value that is not entered. -/
  | leaf (v : Value)
  /-- A list or a category inside itself. -/
  | again
  | sequence (tuple : Bool) (nodes : List Unfolding)
  /-- A category, by its entries but for its items, and its items if it has any. -/
  | category (entries : List (Value × Value)) (items : Option Unfolding)

/-- The entries with another value for the items. -/
def withItems (v : Value) (entries : List (Value × Value)) : List (Value × Value) :=
  entries.map fun e => (e.1, if e.1 = .text "items" then v else e.2)

theorem field?_withItems (key : Text) (v : Value) (entries : List (Value × Value)) :
    field? key (withItems v entries) =
      if key = "items" then (field? key entries).map fun _ => v else field? key entries := by
  induction entries with
  | nil => split <;> rfl
  | cons e entries ih =>
    obtain ⟨k, w⟩ := e
    simp only [field?, withItems, List.map_cons, List.lookup_cons] at ih ⊢
    by_cases hk : k = .text key
    · by_cases hi : key = "items" <;> simp [hk, hi]
    · rw [beq_false_of_ne fun he => hk he.symm]
      exact ih

namespace Heap

variable {h t : Heap} {ancestors : List Address} {v w : Value} {entries : List (Value × Value)}

/-- The value is a tuple. -/
def isTuple (h : Heap) (v : Value) : Bool :=
  match h.view v with
  | .tuple .. => true
  | _ => false

mutual

/-- What is met from a value that should be a list of nodes. -/
def unfoldItems (h : Heap) (ancestors : List Address) (v : Value) : Unfolding :=
  match hs : h.sequence? v with
  | none => .leaf v
  | some (a, nodes) =>
    if ha : a ∈ ancestors then .again
    else
      have := unvisited_cons_lt (lt_size_of_sequence? hs) ha
      .sequence (h.isTuple v) (nodes.map fun w => unfoldNode h (a :: ancestors) w)
termination_by h.unvisited ancestors

/-- What is met from a node. -/
def unfoldNode (h : Heap) (ancestors : List Address) (v : Value) : Unfolding :=
  match hv : h.view v with
  | .mapping a entries =>
    if ha : a ∈ ancestors then .again
    else if h.HasType "category" entries then
      have := unvisited_cons_lt (lt_size_of_view (h := h) (v := v) (a := a) (by rw [hv]; rfl)) ha
      .category (withItems .null entries)
        ((field? "items" entries).map fun w => unfoldItems h (a :: ancestors) w)
    else .leaf v
  | _ => .leaf v
termination_by h.unvisited ancestors

end

/-- What is met from each group of a configuration. -/
def unfoldGroups (h : Heap) (entries : List (Value × Value)) : List (Value × Unfolding) :=
  entries.map fun e => (e.1, h.unfoldItems [] e.2)

/-- What is met in a configuration, group by group. -/
def unfoldConfig? (h : Heap) (config : Value) : Option (List (Value × Unfolding)) :=
  match h.view config with
  | .mapping _ entries => some (h.unfoldGroups entries)
  | _ => none

theorem unfoldConfig?_of_mapping {config : Value} {a : Address}
    (hv : h.view config = .mapping a entries) :
    h.unfoldConfig? config = some (h.unfoldGroups entries) := by
  rw [unfoldConfig?, hv]

section Equations

variable {a : Address} {nodes : List Value}

theorem unfoldItems_of_other (hs : h.sequence? v = none) : h.unfoldItems ancestors v = .leaf v := by
  rw [unfoldItems]
  split
  · rfl
  · next hs' => cases hs.symm.trans hs'

theorem unfoldItems_of_mem (hs : h.sequence? v = some (a, nodes)) (ha : a ∈ ancestors) :
    h.unfoldItems ancestors v = .again := by
  rw [unfoldItems]
  split
  · next hs' => cases hs.symm.trans hs'
  · next hs' =>
    obtain ⟨rfl, rfl⟩ := Prod.mk.inj (Option.some.inj (hs.symm.trans hs'))
    rw [dif_pos ha]

theorem unfoldItems_of_sequence? (hs : h.sequence? v = some (a, nodes)) (ha : a ∉ ancestors) :
    h.unfoldItems ancestors v =
      .sequence (h.isTuple v) (nodes.map (h.unfoldNode (a :: ancestors))) := by
  rw [unfoldItems]
  split
  · next hs' => cases hs.symm.trans hs'
  · next hs' =>
    obtain ⟨rfl, rfl⟩ := Prod.mk.inj (Option.some.inj (hs.symm.trans hs'))
    rw [dif_neg ha]

theorem unfoldNode_of_other (hv : ∀ a entries, h.view v ≠ .mapping a entries) :
    h.unfoldNode ancestors v = .leaf v := by
  rw [unfoldNode]
  split
  · next hv' => exact absurd hv' (hv _ _)
  · rfl

theorem unfoldNode_of_mem (hv : h.view v = .mapping a entries) (ha : a ∈ ancestors) :
    h.unfoldNode ancestors v = .again := by
  rw [unfoldNode]
  split
  · next hv' =>
    obtain ⟨rfl, rfl⟩ := View.mapping.inj (hv.symm.trans hv')
    rw [dif_pos ha]
  · next hm => exact absurd hv (hm a entries)

theorem unfoldNode_of_category (hv : h.view v = .mapping a entries) (ha : a ∉ ancestors)
    (hc : h.HasType "category" entries) :
    h.unfoldNode ancestors v = .category (withItems .null entries)
      ((field? "items" entries).map (h.unfoldItems (a :: ancestors))) := by
  rw [unfoldNode]
  split
  · next hv' =>
    obtain ⟨rfl, rfl⟩ := View.mapping.inj (hv.symm.trans hv')
    rw [dif_neg ha, if_pos hc]
  · next hm => exact absurd hv (hm a entries)

theorem unfoldNode_of_not_category (hv : h.view v = .mapping a entries) (ha : a ∉ ancestors)
    (hc : ¬ h.HasType "category" entries) : h.unfoldNode ancestors v = .leaf v := by
  rw [unfoldNode]
  split
  · next hv' =>
    obtain ⟨rfl, rfl⟩ := View.mapping.inj (hv.symm.trans hv')
    rw [dif_neg ha, if_neg hc]
  · next hm => exact absurd hv (hm a entries)

end Equations

/-- What a walk meets from a value that should be a list of nodes. -/
inductive ItemsMet (h : Heap) (ancestors : List Address) (v : Value) : Unfolding → Prop
  | other (hs : h.sequence? v = none) : ItemsMet h ancestors v (.leaf v)
  | again {a : Address} {nodes : List Value} (hs : h.sequence? v = some (a, nodes))
      (ha : a ∈ ancestors) : ItemsMet h ancestors v .again
  | sequence {a : Address} {nodes : List Value} {tuple : Bool} {us : List Unfolding}
      (hs : h.sequence? v = some (a, nodes)) (ha : a ∉ ancestors) (ht : h.isTuple v = tuple)
      (hus : nodes.map (h.unfoldNode (a :: ancestors)) = us) :
      ItemsMet h ancestors v (.sequence tuple us)

theorem itemsMet (h : Heap) (ancestors : List Address) (v : Value) :
    h.ItemsMet ancestors v (h.unfoldItems ancestors v) := by
  cases hs : h.sequence? v with
  | none =>
    rw [unfoldItems_of_other hs]
    exact .other hs
  | some s =>
    by_cases ha : s.1 ∈ ancestors
    · rw [unfoldItems_of_mem hs ha]
      exact .again hs ha
    · rw [unfoldItems_of_sequence? hs ha]
      exact .sequence hs ha rfl rfl

/-- What a walk meets from a node. -/
inductive NodeMet (h : Heap) (ancestors : List Address) (v : Value) : Unfolding → Prop
  | other (hv : ∀ a entries, h.view v ≠ .mapping a entries) : NodeMet h ancestors v (.leaf v)
  | again {a : Address} {entries : List (Value × Value)} (hv : h.view v = .mapping a entries)
      (ha : a ∈ ancestors) : NodeMet h ancestors v .again
  | mapping {a : Address} {entries : List (Value × Value)} (hv : h.view v = .mapping a entries)
      (ha : a ∉ ancestors) (hc : ¬ h.HasType "category" entries) : NodeMet h ancestors v (.leaf v)
  | category {a : Address} {entries others : List (Value × Value)} {items : Option Unfolding}
      (hv : h.view v = .mapping a entries) (ha : a ∉ ancestors)
      (hc : h.HasType "category" entries) (ho : withItems .null entries = others)
      (hi : (field? "items" entries).map (h.unfoldItems (a :: ancestors)) = items) :
      NodeMet h ancestors v (.category others items)

theorem nodeMet (h : Heap) (ancestors : List Address) (v : Value) :
    h.NodeMet ancestors v (h.unfoldNode ancestors v) := by
  by_cases hm : ∃ a entries, h.view v = .mapping a entries
  · obtain ⟨a, entries, hv⟩ := hm
    by_cases ha : a ∈ ancestors
    · rw [unfoldNode_of_mem hv ha]
      exact .again hv ha
    · by_cases hc : h.HasType "category" entries
      · rw [unfoldNode_of_category hv ha hc]
        exact .category hv ha hc rfl rfl
      · rw [unfoldNode_of_not_category hv ha hc]
        exact .mapping hv ha hc
  · push Not at hm
    rw [unfoldNode_of_other hm]
    exact .other hm

/-! ## Adding objects -/

/-- The second heap has the objects of the first. -/
def Extends (t h : Heap) : Prop := ∀ a o, h.object? a = some o → t.object? a = some o

/-- The address, if the value is one, has an object. -/
def IsIn (h : Heap) (v : Value) : Prop := ∀ a, v = .ref a → a < h.objects.size

/-- Every address that an object holds has an object. -/
def Closed (h : Heap) : Prop := ∀ o ∈ h.objects, ∀ v ∈ o.values, h.IsIn v

theorem view_of_extends (ht : t.Extends h) (hv : h.IsIn v) : t.view v = h.view v := by
  cases v with
  | ref a =>
    have hlt := hv a rfl
    have ho : h.object? a = some h.objects[a] := Array.getElem?_eq_getElem hlt
    rw [view, view, ho, ht a _ ho]
  | _ => rfl

theorem IsIn.of_part (hc : h.Closed) (hw : h.HasPart v w) : h.IsIn w := by
  obtain ⟨o, ho, hw⟩ := exists_object_of_part hw
  exact hc o ho w hw

theorem printAll_congr {active : List Address} {vs : List Value}
    (hvs : ∀ w ∈ vs, t.printFrom active w = h.printFrom active w) :
    t.printAll active vs = h.printAll active vs := by
  induction vs with
  | nil => rw [printAll, printAll]
  | cons v vs ih =>
    rw [printAll, printAll, hvs v List.mem_cons_self,
      ih fun w hw => hvs w (List.mem_cons_of_mem _ hw)]

theorem printEntries_congr {active : List Address} {es : List (Value × Value)}
    (hes : ∀ w ∈ es.flatMap fun e => [e.1, e.2], t.printFrom active w = h.printFrom active w) :
    t.printEntries active es = h.printEntries active es := by
  induction es with
  | nil => rw [printEntries, printEntries]
  | cons e es ih =>
    simp only [List.flatMap_cons, List.forall_mem_append, List.forall_mem_cons] at hes
    rw [printEntries, printEntries, hes.1.1, hes.1.2.1, ih hes.2]

/-- A value is shown by its view and the parts that are shown inside it. -/
theorem printFrom_congr {active : List Address} (hview : t.view v = h.view v)
    (hparts : ∀ a, (h.view v).address? = some a → a ∉ active →
      ∀ w ∈ h.parts v, t.printFrom (a :: active) w = h.printFrom (a :: active) w) :
    t.printFrom active v = h.printFrom active v := by
  rw [parts] at hparts
  rw [printFrom, printFrom]
  dsimp only
  rw [hview]
  generalize h.view v = found at hparts ⊢
  cases found with
  | list a items =>
    dsimp only
    split
    · rfl
    · next ha => rw [printAll_congr (hparts a rfl ha)]
  | tuple a items =>
    dsimp only
    split
    · rfl
    · next ha => rw [printAll_congr (hparts a rfl ha)]
  | mapping a entries =>
    dsimp only
    split
    · rfl
    · next ha => rw [printEntries_congr (hparts a rfl ha)]
  | set a elements =>
    dsimp only
    split
    · rfl
    · next ha => rw [printAll_congr (hparts a rfl ha)]
  | _ => rfl

/-- Adding objects does not change how a value is shown. -/
theorem printFrom_eq_of_extends (hc : h.Closed) (ht : t.Extends h) (active : List Address)
    (hv : h.IsIn v) : t.printFrom active v = h.printFrom active v := by
  induction active using ancestors_induction (h := h) generalizing v with
  | step active ih =>
    refine printFrom_congr (view_of_extends ht hv) fun a ha hn w hw => ?_
    exact ih a (lt_size_of_view ha) hn (.of_part hc hw)

theorem print?_of_extends (hc : h.Closed) (ht : t.Extends h) (hv : h.IsIn v) :
    t.print? v = h.print? v :=
  printFrom_eq_of_extends hc ht [] hv

/-! ## Reading in a heap with more objects -/

section Reading

variable {path : NodePath} {entries' : List (Value × Value)}

theorem given?_congr (ht : t.Extends h) {key : Text}
    (hf : field? key entries' = field? key entries)
    (hin : ∀ w, field? key entries = some w → h.IsIn w) :
    t.given? key entries' = h.given? key entries := by
  rw [given?, given?, hf]
  cases hw : field? key entries with
  | none => rfl
  | some w => simp only [Option.filter_some, view_of_extends ht (hin w hw)]

theorem showing_of_extends (hc : h.Closed) (ht : t.Extends h) (hv : h.IsIn v)
    (fault : Text → SchemaFault) : t.showing path fault v = h.showing path fault v := by
  rw [showing, showing, print?_of_extends hc ht hv]

theorem typeOfEntries_congr (hc : h.Closed) (ht : t.Extends h)
    (hf : field? "type" entries' = field? "type" entries)
    (hin : ∀ w, field? "type" entries = some w → h.IsIn w) :
    NodeType.ofEntries t path entries' = NodeType.ofEntries h path entries := by
  rw [NodeType.ofEntries, NodeType.ofEntries, given?_congr ht hf hin]
  cases hw : h.given? "type" entries with
  | none => rfl
  | some w =>
    have hw := hin w (given?_eq_some hw).1
    simp only [view_of_extends ht hw, showing_of_extends hc ht hw]

theorem labelOf_congr (ht : t.Extends h) {id : Text}
    (hin : ∀ w, field? "label" entries = some w → h.IsIn w) :
    Doc.labelOf t path id entries = Doc.labelOf h path id entries := by
  rw [Doc.labelOf, Doc.labelOf, given?_congr ht rfl hin]
  cases hw : h.given? "label" entries with
  | none => rfl
  | some w => simp only [Option.map_some, view_of_extends ht (hin w (given?_eq_some hw).1)]

theorem docOfEntries_congr (hc : h.Closed) (ht : t.Extends h)
    (hin : ∀ key w, field? key entries = some w → h.IsIn w) :
    Doc.ofEntries t path entries = Doc.ofEntries h path entries := by
  rw [Doc.ofEntries, Doc.ofEntries, given?_congr ht rfl (hin _)]
  cases hw : h.given? "id" entries with
  | none => rfl
  | some w =>
    have hw := hin _ w (given?_eq_some hw).1
    simp only [view_of_extends ht hw, showing_of_extends hc ht hw, labelOf_congr ht (hin _)]

/-- The head of a category is found alike, with the items that there are. -/
theorem categoryHead_congr (ht : t.Extends h)
    (hl : field? "label" entries' = field? "label" entries)
    (hin : ∀ w, field? "label" entries = some w → h.IsIn w)
    (hi : (field? "items" entries').isSome = (field? "items" entries).isSome) :
    categoryHead t path entries' =
      (categoryHead h path entries).map fun head =>
        (head.1, (field? "items" entries').getD .null) := by
  have hlabel : (t.given? "label" entries').map t.view = (h.given? "label" entries).map h.view := by
    rw [given?_congr ht hl hin]
    cases hw : h.given? "label" entries with
    | none => rfl
    | some w => exact congrArg some (view_of_extends ht (hin w (given?_eq_some hw).1))
  rw [categoryHead, categoryHead, hlabel]
  cases hw : field? "items" entries with
  | none =>
    have hw' : field? "items" entries' = none := by simpa [hw] using hi
    rw [hw']
    split <;> rfl
  | some w =>
    obtain ⟨w', hw'⟩ := Option.isSome_iff_exists.1 (hi.trans (by rw [hw]; rfl))
    rw [hw']
    split <;> rfl

/-! ## Same unfolding, same reading -/

variable {ancestors' : List Address} {v' : Value}

theorem listAt_of_other (hs : h.sequence? v = none) :
    Item.listAt h path ancestors v =
      .error (.schema ⟨path, .itemsNotList (h.view v).typeName⟩) := by
  rw [Item.listAt]
  split
  · rfl
  · next hs' => cases hs.symm.trans hs'

theorem listAt_of_sequence? {a : Address} {nodes : List Value}
    (hs : h.sequence? v = some (a, nodes)) :
    Item.listAt h path ancestors v =
      if a ∈ ancestors then .error (.schema ⟨path, .itemsInItself⟩)
      else Item.nodesFrom h path (a :: ancestors) 0 nodes := by
  rw [Item.listAt]
  split
  · next hs' => cases hs.symm.trans hs'
  · next hs' =>
    obtain ⟨rfl, rfl⟩ := Prod.mk.inj (Option.some.inj (hs.symm.trans hs'))
    rfl

theorem nodeAt_of_other (hv : ∀ a entries, h.view v ≠ .mapping a entries) :
    Item.nodeAt h path ancestors v =
      match h.view v with
      | .text id => (Doc.ofId h path id).map .doc
      | found => .error (.schema ⟨path, .nodeNotMapping found.typeName⟩) := by
  rw [Item.nodeAt]
  split
  · next id hid => rw [hid]
  · next hm => exact absurd hm (hv _ _)
  · next ht hm =>
    generalize h.view v = found at ht hm ⊢
    cases found with
    | text id => exact (ht id rfl).elim
    | _ => rfl

theorem nodeAt_of_mem {a : Address} (hv : h.view v = .mapping a entries) (ha : a ∈ ancestors) :
    Item.nodeAt h path ancestors v = .error (.schema ⟨path, .nodeInItself⟩) := by
  rw [Item.nodeAt]
  split
  · next hid => cases hv.symm.trans hid
  · next hm =>
    obtain ⟨rfl, rfl⟩ := View.mapping.inj (hv.symm.trans hm)
    rw [dif_pos ha]
  · next hm => exact absurd hv (hm a entries)

theorem nodeAt_of_not_category {a : Address} (hv : h.view v = .mapping a entries)
    (ha : a ∉ ancestors) (hc : ¬ h.HasType "category" entries) :
    Item.nodeAt h path ancestors v =
      (NodeType.ofEntries h path entries).bind fun _ =>
        (Doc.ofEntries h path entries).map .doc := by
  rw [Item.nodeAt]
  split
  · next hid => cases hv.symm.trans hid
  · next hm =>
    obtain ⟨rfl, rfl⟩ := View.mapping.inj (hv.symm.trans hm)
    rw [dif_neg ha]
    cases ht : NodeType.ofEntries h path entries with
    | error e => rfl
    | ok type =>
      cases type with
      | doc => rfl
      | category => exact absurd (typeOfEntries_eq_ok_iff.1 ht) hc
  · next hm => exact absurd hv (hm a entries)

theorem nodeAt_of_category {a : Address} (hv : h.view v = .mapping a entries) (ha : a ∉ ancestors)
    (hc : h.HasType "category" entries) :
    Item.nodeAt h path ancestors v =
      (categoryHead h path entries).bind fun head =>
        (Item.listAt h path (a :: ancestors) head.2).map (.category head.1) := by
  have ht : NodeType.ofEntries h path entries = .ok .category := typeOfEntries_eq_ok_iff.2 hc
  rw [Item.nodeAt]
  split
  · next hid => cases hv.symm.trans hid
  · next hm =>
    obtain ⟨rfl, rfl⟩ := View.mapping.inj (hv.symm.trans hm)
    rw [dif_neg ha, ht]
    dsimp only
    cases categoryHead h path entries <;> rfl
  · next hm => exact absurd hv (hm a entries)

/-- Nodes with the same unfoldings are read alike if each of them is. -/
theorem nodesFrom_congr {nodes nodes' : List Value} (i : Nat)
    (hus : nodes'.map (t.unfoldNode ancestors') = nodes.map (h.unfoldNode ancestors))
    (hnode : ∀ w ∈ nodes, ∀ path w', t.unfoldNode ancestors' w' = h.unfoldNode ancestors w →
      Item.nodeAt t path ancestors' w' = Item.nodeAt h path ancestors w) :
    Item.nodesFrom t path ancestors' i nodes' = Item.nodesFrom h path ancestors i nodes := by
  induction nodes generalizing nodes' i with
  | nil =>
    obtain rfl := List.map_eq_nil_iff.1 hus
    rw [Item.nodesFrom, Item.nodesFrom]
  | cons w nodes ih =>
    obtain ⟨w', nodes', rfl, hw, hrest⟩ := List.map_eq_cons_iff.1 hus
    rw [Item.nodesFrom, Item.nodesFrom, hnode w List.mem_cons_self _ w' hw,
      ih (i + 1) hrest fun w hw => hnode w (List.mem_cons_of_mem _ hw)]

theorem listAt_congr (hc : h.Closed) (ht : t.Extends h)
    (ih : ∀ a < h.objects.size, a ∉ ancestors → ∀ w, h.IsIn w → ∀ path ancestors' w',
      t.unfoldNode ancestors' w' = h.unfoldNode (a :: ancestors) w →
        Item.nodeAt t path ancestors' w' = Item.nodeAt h path (a :: ancestors) w)
    (hv : h.IsIn v) (hu : t.unfoldItems ancestors' v' = h.unfoldItems ancestors v) :
    Item.listAt t path ancestors' v' = Item.listAt h path ancestors v := by
  have hmet := h.itemsMet ancestors v
  have hmet' := t.itemsMet ancestors' v'
  rw [hu] at hmet'
  generalize h.unfoldItems ancestors v = u at hmet hmet'
  cases hmet with
  | other hs =>
    cases hmet' with
    | other hs' => rw [listAt_of_other hs, listAt_of_other hs', view_of_extends ht hv]
  | again hs ha =>
    cases hmet' with
    | again hs' ha' => rw [listAt_of_sequence? hs, listAt_of_sequence? hs', if_pos ha, if_pos ha']
  | sequence hs ha htuple hus =>
    cases hmet' with
    | sequence hs' ha' htuple' hus' =>
      rw [listAt_of_sequence? hs, listAt_of_sequence? hs', if_neg ha, if_neg ha']
      refine nodesFrom_congr 0 (hus'.trans hus.symm) fun w hw path w' hw' => ?_
      exact ih _ (lt_size_of_sequence? hs) ha w (.of_part hc (hasPart_of_sequence? hs hw)) _ _ _ hw'

theorem docOfId_congr (hc : h.Closed) (ht : t.Extends h) (id : Text) :
    Doc.ofId t path id = Doc.ofId h path id := by
  refine docOfEntries_congr hc ht fun key w hw a ha => ?_
  obtain ⟨before, behind, hlist, -⟩ := List.lookup_eq_some_iff.1 hw
  have hm : (Value.text key, w) ∈ [(Value.text "id", Value.text id)] := by simp [hlist]
  have hw := congrArg Prod.snd (List.mem_singleton.1 hm)
  cases hw.symm.trans ha

/-- Categories with the same entries but for the items are read alike if the items are. -/
theorem nodeAt_category_congr (hc : h.Closed) (ht : t.Extends h)
    (ih : ∀ a < h.objects.size, a ∉ ancestors → ∀ w, h.IsIn w → ∀ path ancestors' w',
      t.unfoldItems ancestors' w' = h.unfoldItems (a :: ancestors) w →
        Item.listAt t path ancestors' w' = Item.listAt h path (a :: ancestors) w)
    {a a' : Address} (hm : h.view v = .mapping a entries) (ha : a ∉ ancestors)
    (hcat : h.HasType "category" entries) (hm' : t.view v' = .mapping a' entries')
    (ha' : a' ∉ ancestors') (hcat' : t.HasType "category" entries')
    (hothers : withItems .null entries' = withItems .null entries)
    (hitems : (field? "items" entries').map (t.unfoldItems (a' :: ancestors')) =
      (field? "items" entries).map (h.unfoldItems (a :: ancestors))) :
    Item.nodeAt t path ancestors' v' = Item.nodeAt h path ancestors v := by
  have hin : ∀ key w, field? key entries = some w → h.IsIn w :=
    fun key w hw => .of_part hc (hasPart_of_field? hm hw)
  have hlabel : field? "label" entries' = field? "label" entries := by
    have := congrArg (field? "label") hothers
    rwa [field?_withItems, field?_withItems, if_neg (by decide), if_neg (by decide)] at this
  have hsome : (field? "items" entries').isSome = (field? "items" entries).isSome := by
    simpa using congrArg Option.isSome hitems
  rw [nodeAt_of_category hm ha hcat, nodeAt_of_category hm' ha' hcat',
    categoryHead_congr ht hlabel (hin _) hsome]
  cases hhead : categoryHead h path entries with
  | error e => rfl
  | ok head =>
    have hw := (category_of_head hhead).2
    rw [hw, Option.map_some] at hitems
    obtain ⟨w', hw', hu'⟩ := Option.map_eq_some_iff.1 hitems
    have hread := ih a (lt_size_of_mapping hm) ha head.2 (hin _ _ hw) path _ w' hu'
    rw [hw']
    exact congrArg (Except.map (Item.category head.1)) hread

theorem nodeAt_congr (hc : h.Closed) (ht : t.Extends h)
    (ih : ∀ a < h.objects.size, a ∉ ancestors → ∀ w, h.IsIn w → ∀ path ancestors' w',
      t.unfoldItems ancestors' w' = h.unfoldItems (a :: ancestors) w →
        Item.listAt t path ancestors' w' = Item.listAt h path (a :: ancestors) w)
    (hv : h.IsIn v) (hu : t.unfoldNode ancestors' v' = h.unfoldNode ancestors v) :
    Item.nodeAt t path ancestors' v' = Item.nodeAt h path ancestors v := by
  have hmet := h.nodeMet ancestors v
  have hmet' := t.nodeMet ancestors' v'
  rw [hu] at hmet'
  -- both nodes are met as the same unfolding, so in the same way
  generalize h.unfoldNode ancestors v = u at hmet hmet'
  have hview := view_of_extends ht hv
  cases hmet with
  | other hm =>
    cases hmet' with
    | other hm' =>
      rw [nodeAt_of_other hm, nodeAt_of_other hm', hview]
      simp only [docOfId_congr hc ht]
    | mapping hm' => exact absurd (hview.symm.trans hm') (hm _ _)
  | again hm ha =>
    cases hmet' with
    | again hm' ha' => rw [nodeAt_of_mem hm ha, nodeAt_of_mem hm' ha']
  | @mapping a entries hm ha hn =>
    have hin : ∀ key w, field? key entries = some w → h.IsIn w :=
      fun key w hw => .of_part hc (hasPart_of_field? hm hw)
    cases hmet' with
    | other hm' => exact absurd (hview.trans hm) (hm' _ _)
    | mapping hm' ha' hn' =>
      obtain ⟨rfl, rfl⟩ := View.mapping.inj (hm'.symm.trans (hview.trans hm))
      rw [nodeAt_of_not_category hm ha hn, nodeAt_of_not_category hm' ha' hn',
        typeOfEntries_congr hc ht rfl (hin _), docOfEntries_congr hc ht hin]
  | category hm ha hcat ho hi =>
    cases hmet' with
    | category hm' ha' hcat' ho' hi' =>
      exact nodeAt_category_congr hc ht ih hm ha hcat hm' ha' hcat' (ho'.trans ho.symm)
        (hi'.trans hi.symm)

theorem congr_of_unfold_eq (hc : h.Closed) (ht : t.Extends h) (ancestors : List Address) :
    (∀ v, h.IsIn v → ∀ path ancestors' v',
        t.unfoldItems ancestors' v' = h.unfoldItems ancestors v →
          Item.listAt t path ancestors' v' = Item.listAt h path ancestors v) ∧
      ∀ v, h.IsIn v → ∀ path ancestors' v',
        t.unfoldNode ancestors' v' = h.unfoldNode ancestors v →
          Item.nodeAt t path ancestors' v' = Item.nodeAt h path ancestors v := by
  induction ancestors using ancestors_induction (h := h) with
  | step ancestors ih =>
    exact ⟨fun v hv _ _ _ => listAt_congr hc ht (fun a hlt ha => (ih a hlt ha).2) hv,
      fun v hv _ _ _ => nodeAt_congr hc ht (fun a hlt ha => (ih a hlt ha).1) hv⟩

/-- Groups with the same unfoldings are read alike. -/
theorem listOf_congr (hc : h.Closed) (ht : t.Extends h)
    (hin : ∀ e ∈ entries, h.IsIn e.1 ∧ h.IsIn e.2)
    (hu : t.unfoldGroups entries' = h.unfoldGroups entries) :
    Group.listOf t entries' = Group.listOf h entries := by
  induction entries generalizing entries' with
  | nil =>
    obtain rfl := List.map_eq_nil_iff.1 hu
    rfl
  | cons e entries ih =>
    obtain ⟨e', entries', rfl, he, hrest⟩ := List.map_eq_cons_iff.1 hu
    obtain ⟨key, v⟩ := e
    obtain ⟨key', v'⟩ := e'
    obtain ⟨rfl, hv⟩ := Prod.mk.inj he
    obtain ⟨hkin, hvin⟩ := hin _ List.mem_cons_self
    have hread := fun path => (congr_of_unfold_eq hc ht []).1 v hvin path [] v' hv
    rw [Group.listOf, Group.listOf, view_of_extends ht hkin, showing_of_extends hc ht hkin,
      ih (fun e he => hin e (List.mem_cons_of_mem _ he)) hrest]
    simp only [hread]

/-- **Configurations with the same unfolding are read alike**, whatever objects are shared in
them. -/
theorem ofRaw_eq_of_unfoldConfig?_eq {config config' : Value} {groups : List (Value × Unfolding)}
    (hc : h.Closed) (ht : t.Extends h) (hu : h.unfoldConfig? config = some groups)
    (hu' : t.unfoldConfig? config' = some groups) : Tree.ofRaw t config' = Tree.ofRaw h config := by
  unfold unfoldConfig? at hu hu'
  split at hu
  · next a entries hv =>
    split at hu'
    · next a' entries' hv' =>
      have hin : ∀ e ∈ entries, h.IsIn e.1 ∧ h.IsIn e.2 := fun e he =>
        ⟨.of_part hc (hasPart_of_entry hv he).1, .of_part hc (hasPart_of_entry hv he).2⟩
      have hgroups := Option.some.inj (hu'.trans hu.symm)
      rw [Tree.ofRaw, Tree.ofRaw, hv, hv']
      exact congrArg (Except.map Tree.ofGroups) (listOf_congr hc ht hin hgroups)
    · cases hu'
  · cases hu

end Reading

end Heap

end Sidebar.Raw
