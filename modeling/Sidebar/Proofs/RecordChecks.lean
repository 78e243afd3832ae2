import Sidebar.Proofs.Entries
import Sidebar.Record.Models

/-!
# Sidebar.Proofs.RecordChecks: the checks of records are a lenient library

A check of an item carries the path to the item, for the faults that it reports, and the categories
that it has entered, so that it ends.  Neither has a part in what it makes of the item: a category
that makes an item cannot stand in itself, for the item would be smaller than itself.

* `itemAt_elsewhere`: an item is made of a value wherever it stands, unless it stands in something
  that can only make smaller items.
* `checks_lax`: the checks obey the laws of a library that takes values leniently.
-/

namespace Sidebar

open Raw

namespace Record

open Checked

variable {h : Heap} {v w : Value} {entries : List (Value × Value)} {nodes : List Value}
  {path path' : NodePath} {outer outer' : List Address} {name label : Text} {x : Item}
  {xs : List Item}

theorem toOption_both {α β γ : Type} (f : α → β → γ) (x : Checked α) (y : Checked β) :
    (both f x y).toOption = x.toOption.bind fun a => y.toOption.map (f a) := by
  cases x <;> cases y <;> rfl

theorem toOption_eq_of_ok_iff {α : Type} {x y : Checked α} (h : ∀ a, x = .ok a ↔ y = .ok a) :
    x.toOption = y.toOption :=
  Option.ext fun a => by rw [toOption_eq_some_iff, toOption_eq_some_iff, h]

/-! ## Fields -/

theorem text_of_view (hv : h.view v = .text name) : text h path v = .ok name := by
  rw [text, hv]

theorem toOption_text (path path' : NodePath) (v : Value) :
    (text h path v).toOption = (text h path' v).toOption := by
  unfold text
  split
  · rfl
  · split <;> rfl
  · rfl

theorem toOption_docId (path path' : NodePath) (v : Value) :
    (docId h path v).toOption = (docId h path' v).toOption := by
  have ht := toOption_text (h := h) path path' v
  unfold docId
  generalize text h path v = s, text h path' v = s' at ht ⊢
  cases s <;> cases s' <;> cases ht
  · rfl
  · dsimp only
    split
    · rfl
    · split <;> rfl

theorem toOption_literal (expected : Text) (path path' : NodePath) (v : Value) :
    (literal h expected path v).toOption = (literal h expected path' v).toOption := by
  unfold literal
  split <;> rfl

/-- A field that has to be given comes to what its check comes to, at whatever path. -/
theorem toOption_required {α : Type} {check : NodePath → Value → Checked α}
    (hc : ∀ path path' v, (check path v).toOption = (check path' v).toOption) (path : NodePath) :
    (required path name entries check).toOption =
      (field? name entries).bind fun v => (check [] v).toOption := by
  unfold required
  cases field? name entries with
  | none => rfl
  | some v => exact hc _ _ v

theorem toOption_optional {α : Type} {standard : α} {check : NodePath → Value → Checked α}
    (hc : ∀ path path' v, (check path v).toOption = (check path' v).toOption) (path : NodePath) :
    (optional path name entries standard check).toOption =
      (field? name entries).elim (some standard) fun v => (check [] v).toOption := by
  unfold optional
  cases field? name entries with
  | none => rfl
  | some v => exact hc _ _ v

theorem toOption_doc (path path' : NodePath) (entries : List (Value × Value)) :
    (doc h path entries).toOption = (doc h path' entries).toOption := by
  simp only [doc, toOption_both, toOption_required toOption_docId,
    toOption_required toOption_text, toOption_optional (toOption_literal _)]

theorem doc_elsewhere {d : Doc} (hd : doc h path entries = .ok d) (path' : NodePath) :
    doc h path' entries = .ok d := by
  rw [← toOption_eq_some_iff, toOption_doc path' path, hd]
  rfl

/-! ## Items -/

theorem itemType_of_hasType {type : NodeType} (ht : h.HasType type.name entries) :
    itemType h path entries = .ok type := by
  obtain ⟨v, hv, htype⟩ := Option.map_eq_some_iff.1 ht
  rw [itemType, hv]
  dsimp only
  rw [htype]
  cases type <;> rfl

theorem hasType_of_itemType {type : NodeType} (ht : itemType h path entries = .ok type) :
    h.HasType type.name entries := by
  unfold itemType at ht
  unfold Heap.HasType
  cases hf : field? "type" entries with
  | none =>
    rw [hf] at ht
    cases ht
  | some w =>
    rw [hf] at ht
    dsimp only at ht
    rw [Option.map_some]
    split at ht
    · next hd =>
      obtain rfl := Except.ok.inj ht
      exact congrArg some hd
    · split at ht
      · next hc =>
        obtain rfl := Except.ok.inj ht
        exact congrArg some hc
      · cases ht

theorem itemAt_doc {a : Address} (hv : h.view v = .mapping a entries)
    (ht : h.HasType "doc" entries) :
    itemAt h path outer v = (doc h (fieldPath path "doc") entries).map .doc := by
  have htype : itemType h path entries = .ok .doc := itemType_of_hasType ht
  rw [itemAt]
  split
  · next a' entries' hv' =>
    obtain ⟨rfl, rfl⟩ := View.mapping.inj (hv.symm.trans hv')
    rw [htype]
  · next hother => exact absurd hv (hother a entries)

theorem itemAt_category {a : Address} (hv : h.view v = .mapping a entries)
    (ht : h.HasType "category" entries) (ha : a ∉ outer) :
    itemAt h path outer v =
      (categoryIn h (fieldPath path "category") (a :: outer) entries).map fun c =>
        .category c.1 c.2 := by
  have htype : itemType h path entries = .ok .category := itemType_of_hasType ht
  rw [itemAt]
  split
  · next a' entries' hv' =>
    obtain ⟨rfl, rfl⟩ := View.mapping.inj (hv.symm.trans hv')
    rw [htype]
    dsimp only
    rw [dif_neg ha]
  · next hother => exact absurd hv (hother a entries)

/-- How an item is made: of the fields of a document, or of those of a category that is not entered
already. -/
theorem itemAt_cases (hx : itemAt h path outer v = .ok x) :
    ∃ a entries, h.view v = .mapping a entries ∧
      ((h.HasType "doc" entries ∧
          ∃ d, doc h (fieldPath path "doc") entries = .ok d ∧ .doc d = x) ∨
        (h.HasType "category" entries ∧ a ∉ outer ∧
          ∃ c, categoryIn h (fieldPath path "category") (a :: outer) entries = .ok c ∧
            .category c.1 c.2 = x)) := by
  rw [itemAt] at hx
  split at hx
  · next a entries hv =>
    refine ⟨a, entries, hv, ?_⟩
    split at hx
    · cases hx
    · next ht => exact .inl ⟨hasType_of_itemType ht, exists_of_map_eq_ok hx⟩
    · next ht =>
      split at hx
      · cases hx
      · next ha => exact .inr ⟨hasType_of_itemType ht, ha, exists_of_map_eq_ok hx⟩
  · cases hx

/-! ## Items elsewhere -/

/-- What is made into the item inside `outer` is made into it inside `outer'` as well. -/
def Carried (h : Heap) (outer outer' : List Address) (x : Item) : Prop :=
  ∀ path v, itemAt h path outer v = .ok x → ∀ path', itemAt h path' outer' v = .ok x

theorem itemsFrom_carried {i j : Nat} (hc : ∀ x ∈ xs, Carried h outer outer' x)
    (hn : itemsFrom h path outer i nodes = .ok xs) :
    itemsFrom h path' outer' j nodes = .ok xs := by
  induction nodes generalizing i j xs with
  | nil =>
    rw [itemsFrom] at hn
    obtain rfl := Except.ok.inj hn
    rw [itemsFrom]
  | cons v nodes ih =>
    rw [itemsFrom] at hn
    obtain ⟨x, rest, hx, hrest, rfl⟩ := both_eq_ok hn
    rw [List.forall_mem_cons] at hc
    rw [itemsFrom, hc.1 _ v hx, ih hc.2 hrest]
    rfl

theorem itemsAt_carried (hc : ∀ x ∈ xs, Carried h outer outer' x)
    (hl : itemsAt h path outer v = .ok xs) : itemsAt h path' outer' v = .ok xs := by
  rw [itemsAt] at hl ⊢
  cases he : elements? h v with
  | none =>
    rw [he] at hl
    cases hl
  | some nodes =>
    rw [he] at hl
    exact itemsFrom_carried hc hl

theorem categoryIn_carried {c : Text × List Item} (hc : ∀ x ∈ c.2, Carried h outer outer' x)
    (hx : categoryIn h path outer entries = .ok c) : categoryIn h path' outer' entries = .ok c := by
  rw [categoryIn] at hx
  obtain ⟨u, c', ht, hrest, rfl⟩ := both_eq_ok hx
  obtain ⟨label, xs, hl, hitems, rfl⟩ := both_eq_ok hrest
  have ht' : optional path' "type" entries () (literal h "category") = .ok u := by
    rw [← toOption_eq_some_iff, toOption_optional (toOption_literal _)] at ht ⊢
    exact ht
  have hl' : required path' "label" entries (text h) = .ok label := by
    rw [← toOption_eq_some_iff, toOption_required toOption_text] at hl ⊢
    exact hl
  rw [categoryIn, ht', hl']
  cases hf : field? "items" entries with
  | none =>
    rw [hf] at hitems
    obtain rfl := Except.ok.inj hitems
    rfl
  | some w =>
    rw [hf] at hitems
    have hitems' : itemsAt h (fieldPath path' "items") outer' w = .ok xs :=
      itemsAt_carried hc hitems
    dsimp only
    rw [hitems']
    rfl

/-- All that is made of the object, wherever it stands, is larger than `n`. -/
def Outgrows (h : Heap) (a : Address) (n : Nat) : Prop :=
  ∀ path outer y, itemAt h path outer (.ref a) = .ok y → n < sizeOf y

theorem sizeOf_lt_of_mem {x : Item} (hx : x ∈ xs) : sizeOf x < sizeOf (Item.category label xs) := by
  have hlt := List.sizeOf_lt_of_mem hx
  rw [Item.category.sizeOf_spec]
  omega

/-- **An item is made of a value wherever it stands**, unless it stands in something that can only
make smaller items. -/
theorem itemAt_elsewhere (hout : ∀ b ∈ outer', b ∉ outer → Outgrows h b (sizeOf x)) :
    Carried h outer outer' x := by
  induction x generalizing outer outer' with
  | doc d =>
    intro path v hx path'
    obtain ⟨a, entries, hv, ⟨ht, d', hd, he⟩ | ⟨-, -, c, -, he⟩⟩ := itemAt_cases hx
    · obtain rfl := Item.doc.inj he
      rw [itemAt_doc hv ht, doc_elsewhere hd]
      rfl
    · cases he
  | category label items ih =>
    intro path v hx path'
    obtain ⟨a, entries, hv, ⟨-, d, -, he⟩ | ⟨ht, ha, c, hc, he⟩⟩ := itemAt_cases hx
    · cases he
    · obtain ⟨rfl, rfl⟩ := Item.category.inj he
      obtain rfl := Heap.eq_ref_of_mapping hv
      -- the object makes this very item, which is no larger than itself
      have ha' : a ∉ outer' := fun hmem => Nat.lt_irrefl _ (hout a hmem ha path outer _ hx)
      have hcarried (x : Item) (hx : x ∈ c.2) : Carried h (a :: outer) (a :: outer') x := by
        refine ih x hx fun b hb hb' q o y hy => ?_
        rw [List.mem_cons, not_or] at hb'
        have hlt := hout b ((List.mem_cons.1 hb).resolve_left hb'.1) hb'.2 q o y hy
        exact (sizeOf_lt_of_mem hx).trans hlt
      rw [itemAt_category hv ht ha', categoryIn_carried hcarried hc]
      rfl

/-! ## The path has no part in what is made -/

theorem itemAt_anywhere (hx : itemAt h path outer v = .ok x) (path' : NodePath) :
    itemAt h path' outer v = .ok x :=
  itemAt_elsewhere (fun _ hb hb' => absurd hb hb') path v hx path'

theorem toOption_itemAt (path path' : NodePath) (v : Value) :
    (itemAt h path outer v).toOption = (itemAt h path' outer v).toOption :=
  toOption_eq_of_ok_iff fun _ => ⟨fun hx => itemAt_anywhere hx path',
    fun hx => itemAt_anywhere hx path⟩

theorem itemsAt_anywhere (hl : itemsAt h path outer v = .ok xs) (path' : NodePath) :
    itemsAt h path' outer v = .ok xs :=
  itemsAt_carried (fun _ _ _ _ hx => itemAt_anywhere hx) hl

theorem toOption_itemsAt (path path' : NodePath) (v : Value) :
    (itemsAt h path outer v).toOption = (itemsAt h path' outer v).toOption :=
  toOption_eq_of_ok_iff fun _ => ⟨fun hl => itemsAt_anywhere hl path',
    fun hl => itemsAt_anywhere hl path⟩

/-- A category that is entered already makes the same of its fields as one that is not. -/
theorem categoryIn_self_iff {a : Address} {c : Text × List Item} (path' : NodePath)
    (hv : h.view v = .mapping a entries) (ht : h.HasType "category" entries) :
    categoryIn h path [a] entries = .ok c ↔ category h path' entries = .ok c := by
  have hfewer {outer : List Address} {x : Item} : Carried h outer [] x :=
    itemAt_elsewhere fun _ hb => absurd hb List.not_mem_nil
  refine ⟨categoryIn_carried fun x _ => hfewer, fun hc => ?_⟩
  refine categoryIn_carried (fun x hx => itemAt_elsewhere fun _ hb _ => ?_) hc
  obtain rfl := List.mem_singleton.1 hb
  intro q o y hy
  obtain rfl := Heap.eq_ref_of_mapping hv
  obtain ⟨a, entries', hv', ⟨ht', -⟩ | ⟨-, -, c', hc', rfl⟩⟩ := itemAt_cases hy
  · obtain ⟨-, rfl⟩ := View.mapping.inj (hv.symm.trans hv')
    exact absurd (ht.unique ht') (by decide)
  · obtain ⟨-, rfl⟩ := View.mapping.inj (hv.symm.trans hv')
    -- whatever is made of the category, is made of it where nothing is entered
    have hsame : category h path' entries = .ok c' := categoryIn_carried (fun x _ => hfewer) hc'
    obtain rfl := Except.ok.inj (hc.symm.trans hsame)
    exact sizeOf_lt_of_mem hx

/-! ## Laws -/

theorem checks_item {a : Address} {type : NodeType} (hv : h.view v = .mapping a entries)
    (ht : h.HasType type.name entries) :
    checks.validate h .item v = checks.construct h (.node type) entries := by
  unfold checks
  dsimp only
  cases type with
  | doc =>
    rw [itemAt_doc hv ht, toOption_map, toOption_doc _ [], Option.map_map]
    rfl
  | category =>
    rw [itemAt_category hv ht List.not_mem_nil, toOption_map,
      toOption_eq_of_ok_iff fun c => categoryIn_self_iff [] hv ht, Option.map_map]
    rfl

theorem mapM_checks_item (path : NodePath) (i : Nat) (nodes : List Value) :
    nodes.mapM (checks.validate h .item) =
      (itemsFrom h path [] i nodes).toOption.map Item.allData := by
  induction nodes generalizing i with
  | nil =>
    rw [itemsFrom]
    rfl
  | cons w nodes ih =>
    rw [List.mapM_cons, ih (i + 1), itemsFrom, toOption_both, toOption_itemAt _ []]
    unfold checks
    dsimp only
    cases (itemAt h [] [] w).toOption <;> cases (itemsFrom h path [] (i + 1) nodes).toOption <;> rfl

theorem elements?_of_sequence? {a : Address} (hs : h.sequence? v = some (a, nodes)) :
    elements? h v = some nodes := by
  unfold Heap.sequence? at hs
  unfold elements?
  split at hs <;> simp_all

theorem checks_items {a : Address} (hs : h.sequence? v = some (a, nodes)) :
    checks.validate h .items v = (nodes.mapM (checks.validate h .item)).map .tuple := by
  have hitems : itemsAt h [] [] v = itemsFrom h [] [] 0 nodes := by
    rw [itemsAt, elements?_of_sequence? hs]
  rw [mapM_checks_item [] 0 nodes, ← hitems, Option.map_map]
  rfl

/-- The groups are made entry by entry, where all keys are texts. -/
theorem mapM_checks_items {names : List Text} (path : NodePath)
    (hn : entries.map (fun e => h.view e.1) = names.map .text) :
    (entries.mapM fun e => checks.validate h .items e.2).map (names.zip ·) =
      (groups h path entries).toOption.map fun gs =>
        gs.map fun g => (g.1, Data.tuple (Item.allData g.2)) := by
  induction entries generalizing names with
  | nil =>
    obtain rfl := List.map_eq_nil_iff.1 hn.symm
    rfl
  | cons e entries ih =>
    obtain ⟨name, names, rfl, hk, hrest⟩ := List.map_eq_cons_iff.1 hn.symm
    obtain ⟨key, v⟩ := e
    have hk : h.view key = .text name := hk.symm
    have hname : text h (fieldPath (path ++ [keyStep h key]) "[key]") key = .ok name :=
      text_of_view hk
    have hothers := ih hrest.symm
    rw [List.mapM_cons, groups, hname, toOption_both, toOption_both, toOption_itemsAt _ []]
    generalize entries.mapM (fun e => checks.validate h .items e.2) = data at hothers ⊢
    generalize (groups h path entries).toOption = gs at hothers ⊢
    unfold checks
    dsimp only
    generalize (itemsAt h [] [] v).toOption = xs
    cases xs with
    | none => rfl
    | some xs =>
      cases gs with
      | none =>
        obtain rfl := Option.map_eq_none_iff.1 hothers
        rfl
      | some gs =>
        obtain ⟨ds, rfl, hds⟩ := Option.map_eq_some_iff.1 hothers
        exact congrArg (fun rest => some ((name, Data.tuple (Item.allData xs)) :: rest)) hds

theorem checks_groups {a : Address} {names : List Text} (hv : h.view v = .mapping a entries)
    (hn : entries.map (fun e => h.view e.1) = names.map .text) :
    checks.validate h .groups v =
      (entries.mapM fun e => checks.validate h .items e.2).map fun data =>
        .mapping (Keyed.ofEntries (names.zip data)) := by
  have hgroups := congrArg (Option.map fun es => Data.mapping (Keyed.ofEntries es))
    (mapM_checks_items [] hn)
  rw [Option.map_map, Option.map_map] at hgroups
  refine Eq.trans ?_ hgroups.symm
  unfold checks
  dsimp only
  rw [hv]
  rfl

/-! The data of a declared field, by the check of the field. -/

section Fields

variable {α : Type} {f : Field} {check : NodePath → Value → Checked α} {data : α → Data}

theorem fieldData_checks_required (hs : f.standard = none)
    (hd : ∀ v, (checks.validate h f.type v).map f.after = (check [] v).toOption.map data)
    (hc : ∀ path path' v, (check path v).toOption = (check path' v).toOption) (path : NodePath) :
    checks.fieldData h entries f = (required path f.name entries check).toOption.map data := by
  rw [toOption_required hc, Library.fieldData]
  cases field? f.name entries with
  | none => exact hs
  | some v => exact hd v

theorem fieldData_checks_optional {standard : α} (hs : f.standard = some (data standard))
    (hd : ∀ v, (checks.validate h f.type v).map f.after = (check [] v).toOption.map data)
    (hc : ∀ path path' v, (check path v).toOption = (check path' v).toOption) (path : NodePath) :
    checks.fieldData h entries f =
      (optional path f.name entries standard check).toOption.map data := by
  rw [toOption_optional hc, Library.fieldData]
  cases field? f.name entries with
  | none => exact hs
  | some v => exact hd v

end Fields

theorem fieldData_checks_type (type : NodeType) (path : NodePath) :
    checks.fieldData h entries (typeField type) =
      (optional path "type" entries () (literal h type.name)).toOption.map
        fun _ => .text type.name :=
  fieldData_checks_optional rfl (fun _ => congrFun Option.map_id _) (toOption_literal _) path

theorem fieldData_checks_id (path : NodePath) :
    checks.fieldData h entries idField =
      (required path "id" entries (docId h)).toOption.map .text :=
  fieldData_checks_required rfl (fun _ => congrFun Option.map_id _) toOption_docId path

theorem fieldData_checks_label (path : NodePath) :
    checks.fieldData h entries labelField =
      (required path "label" entries (text h)).toOption.map .text :=
  fieldData_checks_required rfl (fun _ => congrFun Option.map_id _) toOption_text path

theorem fieldData_checks_items (path : NodePath) :
    checks.fieldData h entries itemsField =
      (optional path "items" entries [] fun path v => itemsAt h path [] v).toOption.map
        fun xs => .tuple (Item.allData xs) :=
  fieldData_checks_optional rfl (fun _ => congrFun Option.map_id _) toOption_itemsAt path

theorem toOption_groups (path path' : NodePath) (entries : List (Value × Value)) :
    (groups h path entries).toOption = (groups h path' entries).toOption := by
  induction entries with
  | nil => rfl
  | cons e entries ih =>
    simp only [groups, toOption_both]
    rw [ih, toOption_text _ [], toOption_itemsAt _ [], toOption_text (fieldPath (path' ++ _) _) [],
      toOption_itemsAt (path' ++ _) []]

/-- What the groups of a tree have to be. -/
theorem toOption_treeGroups (path path' : NodePath) (v : Value) :
    (match h.view v with
      | .mapping _ entries => (groups h path entries).map Tree.ofGroups
      | _ => .fail .notMapping path : Checked Tree).toOption =
    (match h.view v with
      | .mapping _ entries => (groups h path' entries).map Tree.ofGroups
      | _ => .fail .notMapping path' : Checked Tree).toOption := by
  cases h.view v with
  | mapping a entries =>
    dsimp only
    rw [toOption_map, toOption_map, toOption_groups path path']
  | _ => rfl

theorem fieldData_checks_groups (path : NodePath) :
    checks.fieldData h entries groupsField =
      (tree h path entries).toOption.map fun t =>
        .mapping (t.groups.map fun g => (g.1, .tuple (Item.allData g.2))) := by
  refine fieldData_checks_optional rfl (fun v => ?_) toOption_treeGroups path
  unfold groupsField checks
  dsimp only
  cases h.view v with
  | mapping a entries =>
    dsimp only
    rw [toOption_map, Option.map_map, Option.map_map]
    refine congrArg (Option.map · _) (funext fun gs => ?_)
    have hmap := Keyed.ofEntries_map (fun xs => Data.tuple (Item.allData xs)) gs
    exact (Data.frozen_ofEntries _).trans (congrArg Data.mapping hmap)
  | _ => rfl

theorem category_eq (path : NodePath) (entries : List (Value × Value)) :
    category h path entries =
      both (fun _ c => c) (optional path "type" entries () (literal h "category"))
        (both Prod.mk (required path "label" entries (text h))
          (optional path "items" entries [] fun path v => itemsAt h path [] v)) := by
  rw [category, categoryIn]
  rfl

theorem checks_construct (h : Heap) (model : Model) (entries : List (Value × Value)) :
    checks.construct h model entries =
      (model.fields.mapM (checks.fieldData h entries)).map (.record model) := by
  cases model with
  | tree =>
    rw [Model.fields, List.mapM_cons, List.mapM_nil, fieldData_checks_groups []]
    unfold checks
    dsimp only
    generalize (tree h [] entries).toOption = t
    cases t <;> rfl
  | node type =>
    cases type with
    | doc =>
      rw [Model.fields, List.mapM_cons, List.mapM_cons, List.mapM_cons, List.mapM_nil,
        fieldData_checks_type .doc [], fieldData_checks_id [], fieldData_checks_label []]
      unfold checks
      dsimp only
      rw [doc, toOption_both, toOption_both, NodeType.name]
      generalize (optional [] "type" entries () (literal h "doc")).toOption = type,
        (required [] "id" entries (docId h)).toOption = id,
        (required [] "label" entries (text h)).toOption = label
      cases type <;> cases id <;> cases label <;> rfl
    | category =>
      rw [Model.fields, List.mapM_cons, List.mapM_cons, List.mapM_cons, List.mapM_nil,
        fieldData_checks_type .category [], fieldData_checks_label [], fieldData_checks_items []]
      unfold checks
      dsimp only
      rw [category_eq, toOption_both, toOption_both, NodeType.name]
      generalize (optional [] "type" entries () (literal h "category")).toOption = type,
        (required [] "label" entries (text h)).toOption = label,
        (optional [] "items" entries [] fun path v => itemsAt h path [] v).toOption = items
      cases type <;> cases label <;> cases items <;> rfl

/-- **The checks are a lenient library.** -/
theorem checks_lax : checks.Lax where
  literal expected hv := by
    unfold checks literal
    dsimp only
    rw [hv]
    split
    · next ht =>
      obtain rfl := View.text.inj ht
      rw [if_pos rfl]
      rfl
    · next ht =>
      rw [if_neg fun he => ht (congrArg View.text he)]
      rfl
  text hv := by
    unfold checks
    dsimp only
    rw [text_of_view hv]
    rfl
  nonEmptyText {h v t} hv := by
    unfold checks docId
    dsimp only
    rw [text_of_view hv]
    dsimp only
    by_cases hs : t.hasSurrogate = true
    · rw [if_pos hs, if_pos (.inl hs)]
      rfl
    · by_cases ht : t = []
      · rw [if_neg hs, if_pos ht, if_pos (.inr ht)]
        rfl
      · rw [if_neg hs, if_neg ht, if_neg (not_or.2 ⟨hs, ht⟩)]
        rfl
  item hv ht := checks_item hv ht
  items hs := checks_items hs
  groups hv hn := checks_groups hv hn
  construct := checks_construct

end Record

end Sidebar
