import Sidebar.Proofs.Pagination
import Sidebar.Proofs.PlainReading

/-!
# Sidebar.Proofs.RoundTrip: trees are read back from what they are written as

A tree is written as a configuration, group by group and item by item.  A document whose label is
the one that its id makes may be written in a shorter way, as a bare id or without a label, and at
every place another way may be chosen (`Item.WrittenAs`).

* `nodeOf_of_writtenAs`: however an item is written, it is read back.
* `writable_of_ofRaw`: every tree that is read can be written.
* `ofRaw_undoes_writing`: reading a tree that was written gives the tree.
-/

namespace Sidebar

open Raw

/-! ## Written forms -/

namespace Item

mutual

/-- The item, written with all its fields. -/
def plain : Item → Plain
  | .doc d => .mapping [(.text "type", .text "doc"), (.text "id", .text d.id),
      (.text "label", .text d.label)]
  | .category label items => .mapping [(.text "type", .text "category"),
      (.text "label", .text label), (.text "items", .list (plains items))]

/-- The items, written with all their fields. -/
def plains : List Item → List Plain
  | [] => []
  | x :: xs => plain x :: plains xs

end

/-- The item is written so, with all fields or in a way that leaves out a label that the id makes.
Every document in it is written in a way of its own. -/
inductive WrittenAs : Item → Plain → Prop
  | doc (d : Doc) : WrittenAs (.doc d) (plain (.doc d))
  | bareId {d : Doc} (hl : d.label = Label.ofId d.id) : WrittenAs (.doc d) (.text d.id)
  | withoutLabel {d : Doc} (hl : d.label = Label.ofId d.id) :
      WrittenAs (.doc d) (.mapping [(.text "type", .text "doc"), (.text "id", .text d.id)])
  | category {label : Text} {items : List Item} {nodes : List Plain}
      (hitems : List.Forall₂ WrittenAs items nodes) :
      WrittenAs (.category label items) (.mapping [(.text "type", .text "category"),
        (.text "label", .text label), (.text "items", .list nodes)])

end Item

/-- The group is written as the entry. -/
def Group.WrittenAs (g : Group) (e : Plain × Plain) : Prop :=
  e.1 = .text g.1 ∧ ∃ nodes, e.2 = .list nodes ∧ List.Forall₂ Item.WrittenAs g.2 nodes

namespace Tree

/-- The tree, written with all fields of its items. -/
def plain (t : Tree) : Plain :=
  .mapping (t.groups.map fun g => (.text g.1, .list (Item.plains g.2)))

/-- The tree is written so, its groups in order. -/
def WrittenAs (t : Tree) (r : Plain) : Prop :=
  ∃ entries, r = .mapping entries ∧ List.Forall₂ Group.WrittenAs t.groups entries

/-- Every name and every id in the tree is one that a configuration can give. -/
structure Writable (t : Tree) : Prop where
  names : ∀ name ∈ t.names, name ≠ []
  ids : ∀ d ∈ t.docs, Heap.ValidId d.id

end Tree

namespace Item

/-! ## Reading back -/

variable {path : NodePath} {x : Item} {r : Plain}

theorem map_trailsAll (above : List Text) (xs : List Item) :
    (trailsAll above xs).map (·.1) = docs xs := by
  rw [docs, trailsAll_eq, trailsAll_eq, List.map_filterMap, List.map_filterMap]
  simp [Place.trail?, Function.comp_def]

theorem docs_cons (x : Item) (xs : List Item) : docs (x :: xs) = docs [x] ++ docs xs := by
  simp [docs, trailsAll]

theorem docs_category (label : Text) (items : List Item) :
    docs [.category label items] = docs items := by
  rw [← map_trailsAll [label] items, docs, trailsAll, trailsAll, List.append_nil, trails]
  rfl

theorem docs_subset_of_mem {xs : List Item} (hx : x ∈ xs) : docs [x] ⊆ docs xs := by
  induction xs with
  | nil => cases hx
  | cons y xs ih =>
    rw [docs_cons y xs]
    rcases List.mem_cons.1 hx with rfl | hx
    · exact List.subset_append_left _ _
    · exact List.subset_append_of_subset_right _ (ih hx)

/-- A document is read back from its id and its label. -/
theorem docOf_text {d : Doc} (hd : Heap.ValidId d.id) :
    Plain.docOf path (some (.text d.id)) (some (.text d.label)) = .ok d := by
  rw [Plain.docOf]
  simp [hd.1, hd.2, Plain.docLabelOf, Doc.record]

/-- A document whose label its id makes is read back from its id. -/
theorem docOf_id {d : Doc} (hd : Heap.ValidId d.id) (hl : d.label = Label.ofId d.id) :
    Plain.docOf path (some (.text d.id)) none = .ok d := by
  rw [Plain.docOf]
  simp [hd.1, hd.2, Plain.docLabelOf, Doc.record, ← hl]

theorem nodesOf_of_forall₂ {items : List Item} {nodes : List Plain}
    (hread : ∀ x ∈ items, ∀ r path, x.WrittenAs r → r.nodeOf path = .ok x)
    (hs : List.Forall₂ WrittenAs items nodes) (i : Nat) :
    Plain.nodesOf path i nodes = .ok items := by
  induction hs generalizing i with
  | nil => rw [Plain.nodesOf]
  | cons hw _ ih =>
    rw [Plain.nodesOf, hread _ List.mem_cons_self _ _ hw,
      ih (fun x hx => hread x (List.mem_cons_of_mem _ hx)) (i + 1)]
    rfl

/-- **However an item is written, it is read back.** -/
theorem nodeOf_of_writtenAs (hw : x.WrittenAs r) (hd : ∀ d ∈ docs [x], Heap.ValidId d.id) :
    r.nodeOf path = .ok x := by
  induction x generalizing r path with
  | doc d =>
    have hid := hd d List.mem_cons_self
    cases hw with
    | doc =>
      rw [plain, Plain.nodeOf_mapping]
      exact congrArg (Except.map Item.doc) (docOf_text hid)
    | bareId hl =>
      rw [Plain.nodeOf]
      exact congrArg (Except.map Item.doc) (docOf_id hid hl)
    | withoutLabel hl =>
      rw [Plain.nodeOf_mapping]
      exact congrArg (Except.map Item.doc) (docOf_id hid hl)
  | category label items ih =>
    rw [docs_category] at hd
    cases hw with
    | @category _ _ nodes hs =>
      have hitems : Plain.itemsOf path (.list nodes) = .ok items := by
        rw [Plain.itemsOf]
        exact nodesOf_of_forall₂ (fun x hx r path hw =>
          ih x hx hw fun d hm => hd d (docs_subset_of_mem hx hm)) hs 0
      rw [Plain.nodeOf_mapping]
      exact congrArg (Except.map (Item.category label)) hitems

theorem writtenAs_plains {items : List Item} (hi : ∀ x ∈ items, x.WrittenAs x.plain) :
    List.Forall₂ WrittenAs items (plains items) := by
  induction items with
  | nil => exact .nil
  | cons x items ih =>
    exact .cons (hi x List.mem_cons_self) (ih fun x hx => hi x (List.mem_cons_of_mem _ hx))

theorem writtenAs_plain (x : Item) : x.WrittenAs x.plain := by
  induction x with
  | doc d => exact .doc d
  | category label items ih =>
    rw [plain]
    exact .category (writtenAs_plains ih)

end Item

namespace Tree

variable {t : Tree} {r : Plain}

theorem writtenAs_plain (t : Tree) : t.WrittenAs t.plain := by
  refine ⟨_, rfl, List.forall₂_map_right_iff.2 (List.forall₂_same.2 fun g _ => ⟨rfl, _, rfl, ?_⟩)⟩
  exact Item.writtenAs_plains fun x _ => x.writtenAs_plain

theorem groupsOf_of_forall₂ {groups : List Group} {entries : List (Plain × Plain)}
    (hnames : ∀ g ∈ groups, g.1 ≠ [])
    (hids : ∀ g ∈ groups, ∀ d ∈ Item.docs g.2, Heap.ValidId d.id)
    (hs : List.Forall₂ Group.WrittenAs groups entries) :
    Plain.groupsOf entries = .ok groups := by
  induction hs with
  | nil => rfl
  | @cons g e groups entries hw _ ih =>
    obtain ⟨name, items⟩ := g
    obtain ⟨key, value⟩ := e
    obtain ⟨rfl, nodes, rfl, hnodes⟩ := hw
    have hitems : Plain.itemsOf (.ofGroup name) (.list nodes) = .ok items := by
      rw [Plain.itemsOf]
      exact Item.nodesOf_of_forall₂ (fun x hx r path hw => Item.nodeOf_of_writtenAs hw fun d hd =>
        hids _ List.mem_cons_self d (Item.docs_subset_of_mem hx hd)) hnodes 0
    rw [Plain.groupsOf, if_neg (hnames _ List.mem_cons_self), hitems,
      ih (fun g hg => hnames g (List.mem_cons_of_mem _ hg))
        fun g hg => hids g (List.mem_cons_of_mem _ hg)]

/-- A tree is read back, whatever way of writing it is chosen. -/
theorem tree_of_writtenAs (ht : t.Writable) (hw : t.WrittenAs r) : r.tree = .ok t := by
  obtain ⟨entries, rfl, hs⟩ := hw
  have hnames : ∀ g ∈ t.groups, g.1 ≠ [] := fun g hg => ht.names _ (List.mem_map_of_mem hg)
  have hids : ∀ g ∈ t.groups, ∀ d ∈ Item.docs g.2, Heap.ValidId d.id := fun g hg d hd =>
    ht.ids d (docs_eq t ▸ List.mem_flatMap.2 ⟨g, hg, hd⟩)
  have hgroups := groupsOf_of_forall₂ hnames hids hs
  rw [Plain.tree, hgroups]
  have hback : ofGroups t.groups = t := by
    obtain ⟨groups, hn⟩ := t
    simp only [ofGroups, Keyed.ofEntries_eq_self hn]
  exact congrArg Except.ok hback

/-! ## What is read can be written -/

section Read

open Heap

variable {h : Heap} {config v : Value} {d : Doc}

theorem validId_of_ofEntries {path : NodePath} {entries : List (Value × Value)}
    (hd : Doc.ofEntries h path entries = .ok d) : ValidId d.id := by
  have hr := h.docReading path entries
  rw [hd] at hr
  cases hr with
  | read hl hid hv => exact hv

theorem validId_of_readsAs (hr : h.ReadsAs v (.doc d)) : ValidId d.id := by
  obtain ⟨path, ancestors, hd⟩ := hr
  rw [Item.nodeAt] at hd
  split at hd
  · obtain ⟨e, he, hx⟩ := exists_of_map_eq_ok hd
    cases hx
    exact validId_of_ofEntries he
  · split at hd
    · cases hd
    · split at hd
      · cases hd
      · obtain ⟨e, he, hx⟩ := exists_of_map_eq_ok hd
        cases hx
        exact validId_of_ofEntries he
      · split at hd
        · cases hd
        · obtain ⟨items, -, hx⟩ := exists_of_map_eq_ok hd
          cases hx
  · cases hd

theorem name_ne_nil_of_listOf {entries : List (Value × Value)} {groups : List Group}
    (hg : Group.listOf h entries = .ok groups) : ∀ g ∈ groups, g.1 ≠ [] := by
  induction entries generalizing groups with
  | nil =>
    obtain rfl := Except.ok.inj hg
    exact fun g hg => absurd hg List.not_mem_nil
  | cons e entries ih =>
    obtain ⟨key, v⟩ := e
    rw [Group.listOf] at hg
    split at hg
    · split at hg
      · cases hg
      · next hn =>
        split at hg
        · cases hg
        · split at hg
          · cases hg
          · next hgs =>
            obtain rfl := Except.ok.inj hg
            exact List.forall_mem_cons.2 ⟨hn, ih hgs⟩
    · cases hg

/-- **Every tree that is read can be written.** -/
theorem writable_of_ofRaw (ht : ofRaw h config = .ok t) : t.Writable where
  names := by
    unfold ofRaw at ht
    split at ht
    · obtain ⟨groups, hg, rfl⟩ := exists_of_map_eq_ok ht
      intro name hn
      obtain ⟨g, hm, rfl⟩ := List.mem_map.1 hn
      exact name_ne_nil_of_listOf hg g (Keyed.mem_of_mem_ofEntries hm)
    · cases ht
  ids := by
    intro d hd
    obtain ⟨path, hp⟩ := mem_docs_iff.1 hd
    obtain ⟨⟨labels, x⟩, hreach, rfl⟩ := Option.map_eq_some_iff.1 hp
    have hrel := place?_rel ht path
    rw [hreach] at hrel
    generalize h.place? config path = found at hrel
    cases hrel with
    | some hr => exact validId_of_readsAs hr.2

end Read

/-- **Reading undoes writing.**  A tree with names that are not empty and ids that are neither blank
nor hold a lone surrogate, as every tree that is read has them, is read back from what it is written
as: from the full form, and from every form in which documents with the label that their id makes
are written as bare ids or without a label.  All of these are configurations that there are. -/
theorem ofRaw_undoes_writing :
    (∀ (h : Heap) (config : Value) (t : Tree), ofRaw h config = .ok t → t.Writable) ∧
      ∀ t : Tree, t.Writable → t.WrittenAs t.plain ∧
        ∀ r, t.WrittenAs r → (∃ (h : Heap) (config : Value), h.Represents config r) ∧
          ∀ (h : Heap) (config : Value), h.Represents config r → ofRaw h config = .ok t :=
  ⟨fun _ _ _ => writable_of_ofRaw, fun t ht => ⟨t.writtenAs_plain, fun r hw =>
    ⟨Heap.exists_heap_represents r, fun _ _ hr =>
      (Heap.ofRaw_of_represents hr).trans (tree_of_writtenAs ht hw)⟩⟩⟩

/-- A tree with an empty category and an empty group. -/
def mixed : Tree := ⟨[
  ("guide", [.doc ⟨"intro", "Start here"⟩,
    .category "More" [.doc ⟨"setup", "Setup"⟩, .doc ⟨"faq", "Faq"⟩, .category "Later" []]]),
  ("api", [])], by decide⟩

/-- The tree, its documents written in three ways. -/
def mixedPlain : Plain := .mapping [
  (.text "guide", .list [
    .mapping [(.text "type", .text "doc"), (.text "id", .text "intro"),
      (.text "label", .text "Start here")],
    .mapping [(.text "type", .text "category"), (.text "label", .text "More"),
      (.text "items", .list [
        .text "setup",
        .mapping [(.text "type", .text "doc"), (.text "id", .text "faq")],
        .mapping [(.text "type", .text "category"), (.text "label", .text "Later"),
          (.text "items", .list [])]])]]),
  (.text "api", .list [])]

/-- A configuration that is written so; its two empty lists are the same object. -/
def mixedHeap : Heap := ⟨#[
  .mapping [(.text "guide", .ref 1), (.text "api", .ref 7)],
  .list [.ref 2, .ref 3],
  .mapping [(.text "type", .text "doc"), (.text "id", .text "intro"),
    (.text "label", .text "Start here")],
  .mapping [(.text "type", .text "category"), (.text "label", .text "More"),
    (.text "items", .ref 4)],
  .list [.text "setup", .ref 5, .ref 6],
  .mapping [(.text "type", .text "doc"), (.text "id", .text "faq")],
  .mapping [(.text "type", .text "category"), (.text "label", .text "Later"),
    (.text "items", .ref 7)],
  .list []]⟩

theorem mixed_writtenAs : mixed.WrittenAs mixedPlain := by
  refine ⟨_, rfl, .cons ⟨rfl, _, rfl, ?_⟩ (.cons ⟨rfl, _, rfl, .nil⟩ .nil)⟩
  refine .cons (.doc _) (.cons (.category ?_) .nil)
  refine .cons (.bareId (by decide)) (.cons (.withoutLabel (by decide)) ?_)
  exact .cons (.category .nil) .nil

theorem mixedHeap_represents : mixedHeap.Represents (.ref 0) mixedPlain := by
  have text := mixedHeap.represents_text
  have texts := mixedHeap.represents_texts
  have keys := texts ["type", "label", "items"]
  have empty : mixedHeap.Represents (.ref 7) (.list []) := .collection rfl .nil
  refine .mapping rfl (texts ["guide", "api"]) (.cons (.collection rfl ?_) (.cons empty .nil))
  refine .cons (.mapping rfl (texts ["type", "id", "label"]) (texts ["doc", "intro", "Start here"]))
    (.cons (.mapping rfl keys ?_) .nil)
  refine .cons (text _) (.cons (text _) (.cons (.collection rfl ?_) .nil))
  refine .cons (text _) (.cons (.mapping rfl (texts ["type", "id"]) (texts ["doc", "faq"])) ?_)
  exact .cons (.mapping rfl keys (.cons (text _) (.cons (text _) (.cons empty .nil)))) .nil

theorem mixed_reads_back : mixedHeap.Represents (.ref 0) mixedPlain ∧
    ofRaw mixedHeap (.ref 0) = .ok mixed := by
  have hids : ∀ d ∈ mixed.docs, d.id.isBlank = false ∧ d.id.hasSurrogate = false := by decide
  have ht : mixed.Writable := ⟨by decide, hids⟩
  exact ⟨mixedHeap_represents, ((ofRaw_undoes_writing.2 mixed ht).2 _ mixed_writtenAs).2 _ _
    mixedHeap_represents⟩

end Tree

end Sidebar
