import Sidebar.Proofs.Calls
import Sidebar.Proofs.RecordChecks

/-!
# Sidebar.Proofs.Records: configurations that are taken as records

A configuration can be read, and it can be given to a library of records as the groups of a tree.
The two agree where the configuration is spelled out: every node is a mapping, and a document gives
its label.  Fields that are not declared are passed over by both, and a list is as good as a tuple.
All that is known of the library are the laws of `Library.Lax`.

* `Heap.SpelledOut`: no node of the configuration is abbreviated; kept by every step.
* `Library.Lax.construct_given`: a library makes the document of an id and a label, or refuses it,
  as reading does.
* `Library.Lax.taken_of_read`: what is read at a place is taken for the same.
* `Tree.record_of_ofRaw`: what is read as a tree is a record of this tree.
-/

namespace Sidebar

open Raw Relation

namespace Raw

/-! ## Spelled-out configurations -/

/-- The node is a mapping, and a document gives its label as a text. -/
def Heap.SpelledOutNode (h : Heap) (v : Value) : Prop :=
  ∃ a entries, h.view v = .mapping a entries ∧
    (h.HasType "doc" entries → ∃ label, (field? "label" entries).map h.view = some (.text label))

/-- If the place is one of a node, this node is spelled out. -/
def Position.SpelledOut (h : Heap) (p : Position) : Prop :=
  match p.role with
  | .node _ => h.SpelledOutNode p.value
  | _ => True

/-- All nodes of a configuration are spelled out, at every depth. -/
def Heap.SpelledOut (h : Heap) (config : Value) : Prop :=
  ∀ p ∈ h.positions config, p.SpelledOut h

/-- All nodes that steps lead to from a place are spelled out. -/
def Position.SpelledOutWithin (h : Heap) (p : Position) : Prop :=
  ∀ q, ReflTransGen (Position.Step h) p q → q.SpelledOut h

variable {h : Heap} {config : Value} {p q : Position}

theorem Position.SpelledOutWithin.here (hp : p.SpelledOutWithin h) : p.SpelledOut h :=
  hp p .refl

theorem Position.SpelledOutWithin.step (hp : p.SpelledOutWithin h)
    (hstep : Position.Step h p q) : q.SpelledOutWithin h :=
  fun r hr => hp r (.head hstep hr)

theorem Heap.SpelledOut.within (hs : h.SpelledOut config) :
    Position.SpelledOutWithin h ⟨[], .config, config⟩ :=
  fun p hp => hs p (Heap.mem_positions_iff.2 hp)

end Raw

namespace Record.Library.Lax

variable {L : Library} {h : Heap} {v : Value} {entries : List (Value × Value)} {path : NodePath}
  {ancestors : List Address} {id label : Text} {xs : List Item}

/-! ## Fields and documents -/

theorem fieldData_of_given {f : Field} {d : Data} (hf : field? f.name entries = some v)
    (hd : L.validate h f.type v = some d) : L.fieldData h entries f = some (f.after d) := by
  rw [fieldData, hf]
  dsimp only
  rw [hd, Option.map_some]

variable (hL : L.Lax)
include hL

/-- The type of a node is data of its field, unless another one is given. -/
theorem fieldData_type (type : NodeType)
    (ht : ∀ found, (field? "type" entries).map h.view = some found → found = .text type.name) :
    L.fieldData h entries (typeField type) = some (.text type.name) := by
  unfold fieldData typeField
  dsimp only
  cases hf : field? "type" entries with
  | none => rfl
  | some v =>
    have hv : h.view v = .text type.name := ht _ (by rw [hf, Option.map_some])
    dsimp only
    rw [hL.literal _ hv, if_pos rfl]
    rfl

theorem fieldData_label (hl : (field? "label" entries).map h.view = some (.text label)) :
    L.fieldData h entries labelField = some (.text label) := by
  obtain ⟨v, hf, hv⟩ := Option.map_eq_some_iff.1 hl
  exact fieldData_of_given hf (hL.text hv)

theorem fieldData_id (hid : (field? "id" entries).map h.view = some (.text id)) (hne : id ≠ []) :
    L.fieldData h entries idField = if id.hasSurrogate then none else some (.text id) := by
  obtain ⟨v, hf, hv⟩ := Option.map_eq_some_iff.1 hid
  unfold fieldData idField
  rw [hf]
  dsimp only
  rw [hL.nonEmptyText hv]
  simp only [hne, or_false]
  split <;> rfl

/-- The document of an id and a label, unless the id cannot be encoded. -/
theorem construct_doc
    (ht : ∀ found, (field? "type" entries).map h.view = some found → found = .text "doc")
    (hid : (field? "id" entries).map h.view = some (.text id)) (hne : id ≠ [])
    (hl : (field? "label" entries).map h.view = some (.text label)) :
    L.construct h (.node .doc) entries = (Doc.record id label).toOption.map Doc.data := by
  rw [hL.construct, Model.fields, List.mapM_cons, fieldData_type hL .doc ht, List.mapM_cons,
    fieldData_id hL hid hne, List.mapM_cons, fieldData_label hL hl, List.mapM_nil, Doc.record]
  split <;> rfl

/-- **The last step of reading a document is a library's**: with an id that is not blank and a
label, it makes the document that is read, and refuses where reading does. -/
theorem construct_given (hb : id.isBlank = false) :
    L.construct h (.node .doc) [(.text "id", .text id), (.text "label", .text label)] =
      (Doc.record id label).toOption.map Doc.data := by
  have hne : id ≠ [] := by
    rintro rfl
    cases hb
  exact hL.construct_doc (fun found hf => by cases hf) rfl hne rfl

theorem construct_category {data : Data}
    (ht : ∀ found, (field? "type" entries).map h.view = some found → found = .text "category")
    (hl : (field? "label" entries).map h.view = some (.text label))
    (hi : field? "items" entries = some v) (hd : L.validate h .items v = some data) :
    L.construct h (.node .category) entries =
      some (.record (.node .category) [.text "category", .text label, data]) := by
  have hitems : L.fieldData h entries itemsField = some data := fieldData_of_given hi hd
  rw [hL.construct, Model.fields, List.mapM_cons, fieldData_type hL .category ht, List.mapM_cons,
    fieldData_label hL hl, List.mapM_cons, hitems, List.mapM_nil]
  rfl

/-! ## Lists and nodes -/

omit hL in
theorem mapM_of_nodesFrom {i : Nat} {nodes : List Value}
    (hnode : ∀ j w x, nodes[j]? = some w →
      Item.nodeAt h (path.child (i + j)) ancestors w = .ok x →
      L.validate h .item w = some x.data)
    (hn : Item.nodesFrom h path ancestors i nodes = .ok xs) :
    nodes.mapM (L.validate h .item) = some (Item.allData xs) := by
  induction nodes generalizing i xs with
  | nil =>
    rw [Item.nodesFrom] at hn
    obtain rfl := Except.ok.inj hn
    rfl
  | cons w nodes ih =>
    rw [Item.nodesFrom] at hn
    split at hn
    · cases hn
    · next x hx =>
      split at hn
      · cases hn
      · next rest hrest =>
        obtain rfl := Except.ok.inj hn
        have hfirst : L.validate h .item w = some x.data := hnode 0 w x rfl hx
        have hothers : nodes.mapM (L.validate h .item) = some (Item.allData rest) := by
          refine ih (fun j w' x' hw' hx' => hnode (j + 1) w' x' hw' ?_) hrest
          rw [show i + (j + 1) = i + 1 + j by omega]
          exact hx'
        rw [List.mapM_cons, hfirst, hothers]
        rfl

variable (L h) in
/-- The lists of nodes that are read inside `ancestors` are taken for the same items. -/
def ListsTaken (ancestors : List Address) : Prop :=
  ∀ path v xs, Item.listAt h path ancestors v = .ok xs →
    Position.SpelledOutWithin h ⟨path, .items ancestors, v⟩ →
    L.validate h .items v = some (.tuple (Item.allData xs))

variable (L h) in
/-- The nodes that are read inside `ancestors` are taken for the same item. -/
def NodesTaken (ancestors : List Address) : Prop :=
  ∀ path v x, Item.nodeAt h path ancestors v = .ok x →
    Position.SpelledOutWithin h ⟨path, .node ancestors, v⟩ →
    L.validate h .item v = some x.data

theorem listsTaken_of_nodes
    (ih : ∀ a < h.objects.size, a ∉ ancestors → NodesTaken L h (a :: ancestors)) :
    ListsTaken L h ancestors := by
  intro path v xs hl hs
  rw [Item.listAt] at hl
  split at hl
  · cases hl
  · next a nodes hseq =>
    split at hl
    · cases hl
    · next ha =>
      have hnodes := ih a (Heap.lt_size_of_sequence? hseq) ha
      have helements : nodes.mapM (L.validate h .item) = some (Item.allData xs) := by
        refine mapM_of_nodesFrom (fun j w x hw hx => ?_) hl
        rw [Nat.zero_add] at hx
        exact hnodes _ w x hx (hs.step (.node hseq ha hw))
      rw [hL.items hseq, helements, Option.map_some]

/-- What is read as a document is taken for it, if the label is given. -/
theorem construct_of_ofEntries {d : Doc} (ht : h.HasType "doc" entries)
    (hl : (field? "label" entries).map h.view = some (.text label))
    (hd : Doc.ofEntries h path entries = .ok d) :
    L.construct h (.node .doc) entries = some d.data := by
  obtain ⟨⟨id, hid, hvalid⟩, -⟩ := Heap.exists_docOfEntries_iff.1 ⟨d, hd⟩
  have hne : id ≠ [] := by
    rintro rfl
    cases hvalid.1
  have hwritten := Heap.doc?_of_ofEntries hd
  rw [Heap.doc?, hid, hl] at hwritten
  obtain rfl := Option.some.inj hwritten
  have htype (found : View) (hf : (field? "type" entries).map h.view = some found) :
      found = .text "doc" := Option.some.inj (hf.symm.trans ht)
  rw [hL.construct_doc htype hid hne hl, Doc.record, hvalid.2]
  rfl

theorem nodesTaken_of_lists
    (ih : ∀ a < h.objects.size, a ∉ ancestors → ListsTaken L h (a :: ancestors)) :
    NodesTaken L h ancestors := by
  intro path v x hn hs
  obtain ⟨a, entries, hv, hlabel⟩ := hs.here
  rw [Item.nodeAt] at hn
  split at hn
  · next hv' => cases hv.symm.trans hv'
  · next a' entries' hv' =>
    obtain ⟨rfl, rfl⟩ := View.mapping.inj (hv.symm.trans hv')
    split at hn
    · cases hn
    · next ha =>
      split at hn
      · cases hn
      · next htype =>
        have ht : h.HasType "doc" entries := Heap.typeOfEntries_eq_ok_iff.1 htype
        obtain ⟨d, hd, rfl⟩ := exists_of_map_eq_ok hn
        obtain ⟨label, hl⟩ := hlabel ht
        have hitem : L.validate h .item v = L.construct h (.node .doc) entries := hL.item hv ht
        rw [hitem]
        exact hL.construct_of_ofEntries ht hl hd
      · next htype =>
        have ht : h.HasType "category" entries := Heap.typeOfEntries_eq_ok_iff.1 htype
        split at hn
        · cases hn
        · next label items hhead =>
          obtain ⟨xs, hxs, rfl⟩ := exists_of_map_eq_ok hn
          obtain ⟨hl, hi⟩ := Heap.category_of_head hhead
          have hitems := ih a (Heap.lt_size_of_mapping hv) ha path items xs hxs
            (hs.step (.items hv ha ht hi))
          have hgiven (found : View) (hf : (field? "type" entries).map h.view = some found) :
              found = .text "category" := Option.some.inj (hf.symm.trans ht)
          have hitem : L.validate h .item v = L.construct h (.node .category) entries :=
            hL.item hv ht
          rw [hitem]
          exact hL.construct_category hgiven hl hi hitems
  · next hother => exact absurd hv (hother a entries)

/-- **What is read at a place is taken for the same**, where nothing is abbreviated. -/
theorem taken_of_read (ancestors : List Address) :
    ListsTaken L h ancestors ∧ NodesTaken L h ancestors := by
  induction ancestors using Heap.ancestors_induction (h := h) with
  | step ancestors ih =>
    constructor
    · exact listsTaken_of_nodes hL fun a hlt ha => (ih a hlt ha).2
    · exact nodesTaken_of_lists hL fun a hlt ha => (ih a hlt ha).1

/-! ## Groups -/

theorem items_of_listOf {gs : List Group}
    (hs : ∀ e ∈ entries, ∀ name, h.view e.1 = .text name →
      Position.SpelledOutWithin h ⟨.ofGroup name, .items [], e.2⟩)
    (hg : Group.listOf h entries = .ok gs) :
    entries.map (fun e => h.view e.1) = (Keyed.keys gs).map .text ∧
      entries.mapM (fun e => L.validate h .items e.2) =
        some (gs.map fun g => .tuple (Item.allData g.2)) := by
  induction entries generalizing gs with
  | nil =>
    obtain rfl := Except.ok.inj hg
    exact ⟨rfl, rfl⟩
  | cons e entries ih =>
    obtain ⟨key, v⟩ := e
    rw [List.forall_mem_cons] at hs
    rw [Group.listOf] at hg
    split at hg
    · next name hk =>
      split at hg
      · cases hg
      · split at hg
        · cases hg
        · next xs hxs =>
          split at hg
          · cases hg
          · next rest hrest =>
            obtain rfl := Except.ok.inj hg
            have hitems := (taken_of_read hL []).1 _ v xs hxs (hs.1 name hk)
            obtain ⟨hkeys, hothers⟩ := ih hs.2 hrest
            refine ⟨?_, ?_⟩
            · rw [List.map_cons, hk, hkeys]
              rfl
            · rw [List.mapM_cons, hitems, hothers]
              rfl
    · cases hg

end Record.Library.Lax

/-! ## Trees -/

open Record

mutual

theorem Item.eq_of_data_eq : ∀ {x y : Item}, x.data = y.data → x = y
  | .doc d, .doc e, hd => by
    obtain ⟨hid, hlabel⟩ : d.id = e.id ∧ d.label = e.label := by
      simpa [Item.data, Doc.data] using hd
    rw [show d = e from congr (congrArg Doc.mk hid) hlabel]
  | .category label xs, .category label' ys, hd => by
    obtain ⟨hlabel, hitems⟩ : label = label' ∧ allData xs = allData ys := by
      simpa [Item.data] using hd
    rw [hlabel, Item.eq_of_allData_eq hitems]
  | .doc d, .category label ys, hd => by simp [Item.data, Doc.data] at hd
  | .category label xs, .doc e, hd => by simp [Item.data, Doc.data] at hd

theorem Item.eq_of_allData_eq : ∀ {xs ys : List Item}, allData xs = allData ys → xs = ys
  | [], [], _ => rfl
  | x :: xs, y :: ys, hd => by
    obtain ⟨hx, hxs⟩ := List.cons.inj hd
    rw [Item.eq_of_data_eq hx, Item.eq_of_allData_eq hxs]
  | [], _ :: _, hd => by cases hd
  | _ :: _, [], hd => by cases hd

end

/-- The data of a tree tell its groups, their order and their items. -/
theorem Tree.eq_of_data_eq {t u : Tree} (hd : t.data = u.data) : t = u := by
  have hgroups : t.groups = u.groups := by
    have hentries := Data.mapping.inj (List.cons.inj (Data.record.inj hd).2).1
    refine List.map_injective_iff.2 (fun g g' hg => ?_) hentries
    obtain ⟨hname, hitems⟩ := Prod.mk.inj hg
    exact Prod.ext hname (Item.eq_of_allData_eq (Data.tuple.inj hitems))
  obtain ⟨gs, hgs⟩ := t
  obtain ⟨gs', hgs'⟩ := u
  obtain rfl : gs = gs' := hgroups
  rfl

/-- The record of a tree, from the groups as a library takes them. -/
theorem Record.Library.Lax.construct_tree {L : Library} (hL : L.Lax) {h : Heap} {config : Value}
    {gs : List Group}
    (hd : L.validate h .groups config =
      some (.mapping (Keyed.ofEntries (gs.map fun g => (g.1, .tuple (Item.allData g.2)))))) :
    L.construct h .tree [(.text "groups", config)] = some (Tree.ofGroups gs).data := by
  have hfield : L.fieldData h [(.text "groups", config)] groupsField = _ :=
    fieldData_of_given rfl hd
  rw [hL.construct, Model.fields, List.mapM_cons, hfield, List.mapM_nil, Tree.data_ofGroups]
  exact congrArg (fun d => some (Data.record .tree [d])) (Data.frozen_ofEntries _)

/-- **What is read as a tree is a record of this tree**, with every library that takes values
leniently and where every node is spelled out: given the configuration as the groups of a tree, the
library makes a record, and its data are those of the tree that is read and of no other. -/
theorem Tree.record_of_ofRaw {L : Library} (hL : L.Lax) {h : Heap} {config : Value} {t : Tree}
    (hs : h.SpelledOut config) (ht : Tree.ofRaw h config = .ok t) :
    ∃ record, L.construct h .tree [(.text "groups", config)] = some record ∧
      ∀ u : Tree, u.data = record ↔ u = t := by
  refine ⟨t.data, ?_, fun u => ⟨Tree.eq_of_data_eq, congrArg Tree.data⟩⟩
  unfold Tree.ofRaw at ht
  split at ht
  · next a entries hv =>
    obtain ⟨gs, hg, rfl⟩ := exists_of_map_eq_ok ht
    have hspelled (e : Value × Value) (he : e ∈ entries) (name : Text)
        (hk : h.view e.1 = .text name) :
        Position.SpelledOutWithin h ⟨.ofGroup name, .items [], e.2⟩ :=
      hs.within.step (.group hv he hk)
    obtain ⟨hkeys, hitems⟩ := hL.items_of_listOf hspelled hg
    refine hL.construct_tree ?_
    rw [hL.groups hv hkeys, hitems, Option.map_some, Keyed.keys, List.zip_map']
  · cases ht

/-- A configuration of a tuple and a list with other fields, in which a document leads back to
itself. -/
def spelledHeap : Heap := ⟨#[
  .mapping [(.text "docs", .ref 1), (.text "more", .ref 4)],
  .tuple [.ref 2, .ref 3],
  .mapping [(.text "type", .text "doc"), (.text "id", .text "intro"), (.text "label", .text ""),
    (.text "see", .ref 2)],
  .mapping [(.text "type", .text "category"), (.text "label", .text "Part"),
    (.text "items", .ref 4), (.int 7, .null)],
  .list [.ref 2]]⟩

/-- The values that stand in the places of the configuration. -/
def StandsInSpelledHeap (p : Position) : Prop :=
  match p.role with
  | .config => p.value = .ref 0
  | .groupName => True
  | .items _ => p.value = .ref 1 ∨ p.value = .ref 4
  | .node _ => p.value = .ref 2 ∨ p.value = .ref 3

theorem standsInSpelledHeap_of_step {p q : Position} (hstep : Position.Step spelledHeap p q)
    (hp : StandsInSpelledHeap p) : StandsInSpelledHeap q := by
  cases hstep with
  | groupName => trivial
  | @group path config a entries e name hv he hk =>
    obtain rfl : config = .ref 0 := hp
    cases hv
    rcases List.mem_pair.1 he with rfl | rfl
    · exact .inl rfl
    · exact .inr rfl
  | @node path ancestors v w a nodes i hs ha hw =>
    have hw := List.mem_of_getElem? hw
    have hv : v = .ref 1 ∨ v = .ref 4 := hp
    rcases hv with rfl | rfl
    · cases hs
      exact List.mem_pair.1 hw
    · cases hs
      exact .inl (List.mem_singleton.1 hw)
  | @items path ancestors v w a entries hv ha hc hw =>
    have hv' : v = .ref 2 ∨ v = .ref 3 := hp
    rcases hv' with rfl | rfl
    · cases hv
      exact absurd hc (by decide)
    · cases hv
      cases hw
      exact .inr rfl

theorem spelledOut_spelledHeap : spelledHeap.SpelledOut (.ref 0) := by
  have hnode : spelledHeap.SpelledOutNode (.ref 2) := ⟨2, _, rfl, fun _ => ⟨"", rfl⟩⟩
  have hcategory : spelledHeap.SpelledOutNode (.ref 3) :=
    ⟨3, _, rfl, fun ht => absurd ht (by decide)⟩
  intro p hp
  have hstands : StandsInSpelledHeap p := by
    rw [Heap.mem_positions_iff] at hp
    induction hp with
    | refl => rfl
    | tail _ hstep ih => exact standsInSpelledHeap_of_step hstep ih
  obtain ⟨path, role, v⟩ := p
  cases role with
  | node ancestors =>
    have hv : v = .ref 2 ∨ v = .ref 3 := hstands
    rcases hv with rfl | rfl
    · exact hnode
    · exact hcategory
  | _ => trivial

/-- The checks of records are such a library; the document is made at each of its places, whatever
it leads back to. -/
theorem record_of_spelledHeap :
    checks.Lax ∧ spelledHeap.SpelledOut (.ref 0) ∧
      ∃ record, checks.construct spelledHeap .tree [(.text "groups", .ref 0)] = some record ∧
        ∀ u : Tree, u.data = record ↔ u = .ofGroups [
          ("docs", [.doc ⟨"intro", ""⟩, .category "Part" [.doc ⟨"intro", ""⟩]]),
          ("more", [.doc ⟨"intro", ""⟩])] :=
  ⟨checks_lax, spelledOut_spelledHeap,
    Tree.record_of_ofRaw checks_lax spelledOut_spelledHeap (Tree.ofRaw_of_run rfl)⟩

end Sidebar
