import Mathlib.Data.List.Forall2
import Sidebar.Proofs.Places
import Sidebar.Tree.OfRaw

/-!
# Sidebar.Proofs.Written: what a configuration says, and that it is read so

`Heap.node?` says what one value writes: a document, by its bare id or as a mapping, or a category
with its nodes.  `Heap.place?` follows a path through a configuration, from node to node, and keeps
the labels of the categories it passes; it needs no tree and goes wherever the path goes.

* `readsAs_cases`: a value that is read as an item writes that item.
* `Tree.ofRaw_written`: the tree that is read from a configuration has the groups of the
  configuration, in its order, and a path leads to a document in the tree exactly when it leads to
  the same document, under the same labels, in the configuration.
-/

namespace Sidebar

open Raw

theorem exists_of_map_eq_ok {ε α β : Type} {f : α → β} {e : Except ε α} {b : β}
    (h : e.map f = .ok b) : ∃ a, e = .ok a ∧ f a = b := by
  cases e with
  | error e => cases h
  | ok a => exact ⟨a, rfl, Except.ok.inj h⟩

theorem toOption_eq_some_iff {ε α : Type} {r : Except ε α} {a : α} :
    r.toOption = some a ↔ r = .ok a := by
  cases r <;> simp [Except.toOption]

theorem toOption_map {ε α β : Type} (f : α → β) (r : Except ε α) :
    (r.map f).toOption = r.toOption.map f := by
  cases r <;> rfl

theorem toOption_bind {ε α β : Type} (f : α → Except ε β) (r : Except ε α) :
    (r.bind f).toOption = r.toOption.bind fun a => (f a).toOption := by
  cases r <;> rfl

theorem rel_getElem? {α β : Type} {R : α → β → Prop} {xs : List α} {ys : List β}
    (h : List.Forall₂ R xs ys) (i : Nat) : Option.Rel R xs[i]? ys[i]? := by
  induction h generalizing i with
  | nil => exact .none
  | cons hr _ ih =>
    cases i with
    | zero => exact .some hr
    | succ i => simpa using ih i

theorem rel_bind {α β γ δ : Type} {R : α → β → Prop} {S : γ → δ → Prop} {a : Option α}
    {b : Option β} {f : α → Option γ} {g : β → Option δ} (h : Option.Rel R a b)
    (hfg : ∀ x y, R x y → Option.Rel S (f x) (g y)) : Option.Rel S (a.bind f) (b.bind g) := by
  cases h with
  | none => exact .none
  | some h => exact hfg _ _ h

namespace Raw

/-- What a node writes. -/
inductive Node
  | doc (d : Doc)
  | category (label : Text) (nodes : List Value)

namespace Heap

/-- The document that the entries of a mapping write; a label that is absent or null is made from
the id. -/
def doc? (h : Heap) (entries : List (Value × Value)) : Option Doc :=
  match (field? "id" entries).map h.view, (field? "label" entries).map h.view with
  | some (.text id), none => some ⟨id, Label.ofId id⟩
  | some (.text id), some .null => some ⟨id, Label.ofId id⟩
  | some (.text id), some (.text label) => some ⟨id, label⟩
  | _, _ => none

/-- The category that the entries of a mapping write. -/
def category? (h : Heap) (entries : List (Value × Value)) : Option (Text × List Value) :=
  match (field? "label" entries).map h.view, (field? "items" entries).bind h.sequence? with
  | some (.text label), some (_, nodes) => some (label, nodes)
  | _, _ => none

/-- What a value writes as a node. -/
def node? (h : Heap) (v : Value) : Option Node :=
  match h.view v with
  | .text id => some (.doc ⟨id, Label.ofId id⟩)
  | .mapping _ entries =>
    match (field? "type" entries).map h.view with
    | some (.text type) =>
      if type = "doc" then (h.doc? entries).map .doc
      else if type = "category" then (h.category? entries).map fun c => .category c.1 c.2
      else none
    | _ => none
  | _ => none

/-- What steps lead to from a node, with the labels of the categories on the way. -/
def reach? (h : Heap) : List PathStep → Value → Option (List Text × Value)
  | [], v => some ([], v)
  | .index (.ofNat i) :: steps, v =>
    match h.node? v with
    | some (.category label nodes) =>
      nodes[i]?.bind fun w => (reach? h steps w).map fun r => (label :: r.1, r.2)
    | _ => none
  | _ :: _, _ => none

/-- The groups of a configuration, in its order; a later entry of a key would replace an earlier
one. -/
def groups? (h : Heap) (config : Value) : Option (List (Value × Value)) :=
  match h.view config with
  | .mapping _ entries => some (Keyed.ofEntries entries)
  | _ => none

/-- What a path leads to in a configuration, with the labels of the categories on the way. -/
def place? (h : Heap) (config : Value) : NodePath → Option (List Text × Value)
  | .name name :: .index (.ofNat i) :: steps =>
    (h.groups? config).bind fun groups =>
      ((field? name groups).bind h.sequence?).bind fun s => s.2[i]?.bind (h.reach? steps)
  | _ => none

/-- The document that a configuration writes at a path, with the labels of the categories around
it, outermost first. -/
def docAt? (h : Heap) (config : Value) (path : NodePath) : Option (List Text × Doc) :=
  (h.place? config path).bind fun r =>
    match h.node? r.2 with
    | some (.doc d) => some (r.1, d)
    | _ => none

/-! ## Values and items -/

/-- The value is read as the item, somewhere in a configuration. -/
def ReadsAs (h : Heap) (v : Value) (x : Item) : Prop :=
  ∃ path ancestors, Item.nodeAt h path ancestors v = .ok x

/-- The value is a sequence of nodes that are read as the items. -/
def ReadsAsList (h : Heap) (v : Value) (items : List Item) : Prop :=
  ∃ a nodes, h.sequence? v = some (a, nodes) ∧ List.Forall₂ h.ReadsAs nodes items

variable {h : Heap} {path : NodePath} {ancestors : List Address} {entries : List (Value × Value)}

theorem given?_eq_some {key : Text} {v : Value} (hg : h.given? key entries = some v) :
    field? key entries = some v ∧ h.view v ≠ .null := by
  obtain ⟨hf, hn⟩ := Option.filter_eq_some_iff.1 hg
  exact ⟨hf, by simpa using hn⟩

theorem given?_eq_none {key : Text} (hg : h.given? key entries = none) :
    (field? key entries).map h.view = none ∨ (field? key entries).map h.view = some .null := by
  unfold given? at hg
  cases hf : field? key entries with
  | none => exact .inl rfl
  | some v =>
    rw [hf] at hg
    refine .inr (congrArg some ?_)
    by_contra hn
    simp [hn] at hg

theorem doc?_of_ofEntries {d : Doc} (hd : Doc.ofEntries h path entries = .ok d) :
    h.doc? entries = some d := by
  unfold Doc.ofEntries at hd
  split at hd
  · cases hd
  · next v hv =>
    split at hd
    · next id hid =>
      split at hd
      · cases hd
      · split at hd
        · cases hd
        · next label hl =>
          unfold Doc.record at hd
          split at hd
          · cases hd
          · obtain rfl := Except.ok.inj hd
            have hi : (field? "id" entries).map h.view = some (.text id) := by
              rw [(given?_eq_some hv).1]
              exact congrArg some hid
            unfold Doc.labelOf at hl
            unfold doc?
            split at hl
            · next hg =>
              obtain rfl := Except.ok.inj hl
              rcases given?_eq_none (Option.map_eq_none_iff.1 hg) with hn | hn <;> rw [hi, hn]
            · next label' hg =>
              obtain rfl := Except.ok.inj hl
              obtain ⟨w, hw, hwl⟩ := Option.map_eq_some_iff.1 hg
              rw [hi, (given?_eq_some hw).1, Option.map_some, hwl]
            · cases hl
    · cases hd

theorem doc?_of_ofId {id : Text} {d : Doc} (hd : Doc.ofId h path id = .ok d) :
    d = ⟨id, Label.ofId id⟩ := by
  have hw := doc?_of_ofEntries hd
  exact (Option.some.inj hw).symm

theorem type_of_ofEntries {type : NodeType} (ht : NodeType.ofEntries h path entries = .ok type) :
    (field? "type" entries).map h.view =
      some (.text (match type with | .doc => "doc" | .category => "category")) := by
  unfold NodeType.ofEntries at ht
  split at ht
  · cases ht
  · next v hv =>
    rw [(given?_eq_some hv).1, Option.map_some]
    split at ht
    · next hd =>
      obtain rfl := Except.ok.inj ht
      rw [hd]
    · split at ht
      · next hc =>
        obtain rfl := Except.ok.inj ht
        rw [hc]
      · cases ht

theorem category_of_head {label : Text} {items : Value}
    (hc : categoryHead h path entries = .ok (label, items)) :
    (field? "label" entries).map h.view = some (.text label) ∧
      field? "items" entries = some items := by
  unfold categoryHead at hc
  split at hc
  · cases hc
  · next label' hl =>
    split at hc
    · cases hc
    · next items' hi =>
      obtain ⟨rfl, rfl⟩ := Prod.mk.inj (Except.ok.inj hc)
      obtain ⟨w, hw, hwl⟩ := Option.map_eq_some_iff.1 hl
      exact ⟨by rw [(given?_eq_some hw).1, Option.map_some, hwl], hi⟩
  · cases hc

/-- Reading nodes one after the other reads each of them. -/
theorem readsAs_of_nodesFrom {i : Nat} {nodes : List Value} {items : List Item}
    (hn : Item.nodesFrom h path ancestors i nodes = .ok items) :
    List.Forall₂ h.ReadsAs nodes items := by
  induction nodes generalizing i items with
  | nil =>
    rw [Item.nodesFrom] at hn
    obtain rfl := Except.ok.inj hn
    exact .nil
  | cons v nodes ih =>
    rw [Item.nodesFrom] at hn
    split at hn
    · cases hn
    · next x hx =>
      split at hn
      · cases hn
      · next xs hxs =>
        obtain rfl := Except.ok.inj hn
        exact .cons ⟨_, _, hx⟩ (ih hxs)

theorem readsAsList_of_listAt {v : Value} {items : List Item}
    (hl : Item.listAt h path ancestors v = .ok items) : h.ReadsAsList v items := by
  rw [Item.listAt] at hl
  split at hl
  · cases hl
  · next a nodes hs =>
    split at hl
    · cases hl
    · exact ⟨a, nodes, hs, readsAs_of_nodesFrom hl⟩

/-- **One node**: a value that is read as an item writes it; the items of a category are read from
the nodes that are written. -/
theorem readsAs_cases {v : Value} {x : Item} (hr : h.ReadsAs v x) :
    (∃ d, x = .doc d ∧ h.node? v = some (.doc d)) ∨
      ∃ label nodes items, x = .category label items ∧
        h.node? v = some (.category label nodes) ∧ List.Forall₂ h.ReadsAs nodes items := by
  obtain ⟨path, ancestors, hx⟩ := hr
  rw [Item.nodeAt] at hx
  split at hx
  · next id hv =>
    obtain ⟨d, hd, rfl⟩ := exists_of_map_eq_ok hx
    refine .inl ⟨d, rfl, ?_⟩
    rw [node?, hv, doc?_of_ofId hd]
  · next a entries hv =>
    split at hx
    · cases hx
    · split at hx
      · cases hx
      · next ht =>
        obtain ⟨d, hd, rfl⟩ := exists_of_map_eq_ok hx
        refine .inl ⟨d, rfl, ?_⟩
        rw [node?, hv]
        simp only [type_of_ofEntries ht, if_true, doc?_of_ofEntries hd, Option.map_some]
      · next ht =>
        split at hx
        · cases hx
        · next label items hc =>
          obtain ⟨xs, hxs, rfl⟩ := exists_of_map_eq_ok hx
          obtain ⟨b, nodes, hs, hf⟩ := readsAsList_of_listAt hxs
          obtain ⟨hl, hi⟩ := category_of_head hc
          refine .inr ⟨label, nodes, xs, rfl, ?_, hf⟩
          rw [node?, hv]
          simp only [type_of_ofEntries ht]
          rw [if_neg (by decide), if_pos trivial, category?, hl, hi, Option.bind_some, hs]
          rfl
  · cases hx

/-- **One path**: steps lead from a value where they lead from the item it is read as. -/
theorem reach?_rel {v : Value} {x : Item} (hr : h.ReadsAs v x) (steps : List PathStep) :
    Option.Rel (fun r s => r.1 = s.1 ∧ h.ReadsAs r.2 s.2) (h.reach? steps v) (x.reach? steps) := by
  induction steps generalizing v x with
  | nil => exact .some ⟨rfl, hr⟩
  | cons step steps ih =>
    match step with
    | .name _ => exact .none
    | .index (.negSucc _) => exact .none
    | .index (.ofNat i) =>
      rcases readsAs_cases hr with ⟨d, rfl, hn⟩ | ⟨label, nodes, items, rfl, hn, hf⟩
      · rw [reach?, hn]
        exact .none
      · rw [reach?, hn]
        refine rel_bind (rel_getElem? hf i) fun w y hwy => ?_
        rw [Option.map_eq_bind, Option.map_eq_bind]
        exact rel_bind (ih hwy) fun r s hrs => .some ⟨congrArg _ hrs.1, hrs.2⟩

/-! ## Configurations and trees -/

/-- The entry of a configuration is read as the group. -/
def ReadsAsGroup (h : Heap) (e : Value × Value) (g : Group) : Prop :=
  e.1 = .text g.1 ∧ h.ReadsAsList e.2 g.2

theorem view_eq_text {v : Value} {t : Text} (hv : h.view v = .text t) : v = .text t := by
  cases v with
  | text s => rw [View.text.inj hv]
  | ref a =>
    rw [view] at hv
    split at hv <;> cases hv
  | _ => cases hv

theorem readsAsGroup_of_listOf {gs : List Group} (hg : Group.listOf h entries = .ok gs) :
    List.Forall₂ h.ReadsAsGroup entries gs := by
  induction entries generalizing gs with
  | nil =>
    obtain rfl := Except.ok.inj hg
    exact .nil
  | cons e entries ih =>
    obtain ⟨key, v⟩ := e
    rw [Group.listOf] at hg
    split at hg
    · next name hk =>
      split at hg
      · cases hg
      · split at hg
        · cases hg
        · next items hi =>
          split at hg
          · cases hg
          · next groups hgs =>
            obtain rfl := Except.ok.inj hg
            exact .cons ⟨view_eq_text hk, readsAsList_of_listAt hi⟩ (ih hgs)
    · cases hg

/-- Writing an entry and writing the group it is read as come to the same. -/
theorem readsAsGroup_put {e : Value × Value} {g : Group} (he : h.ReadsAsGroup e g)
    {es : List (Value × Value)} {gs : List Group} (hs : List.Forall₂ h.ReadsAsGroup es gs) :
    List.Forall₂ h.ReadsAsGroup (Keyed.put e.1 e.2 es) (Keyed.put g.1 g.2 gs) := by
  induction hs with
  | nil => exact .cons he .nil
  | @cons e' g' es gs he' hs ih =>
    rw [Keyed.put, Keyed.put]
    by_cases hk : g'.1 = g.1
    · rw [if_pos hk, if_pos (by rw [he'.1, he.1, hk])]
      exact .cons he hs
    · rw [if_neg hk, if_neg fun hv => hk (Value.text.inj (he'.1.symm.trans (hv.trans he.1)))]
      exact .cons he' ih

theorem readsAsGroup_ofEntries {es : List (Value × Value)} {gs : List Group}
    (hs : List.Forall₂ h.ReadsAsGroup es gs) :
    List.Forall₂ h.ReadsAsGroup (Keyed.ofEntries es) (Keyed.ofEntries gs) := by
  suffices hd : ∀ done done', List.Forall₂ h.ReadsAsGroup done done' →
      List.Forall₂ h.ReadsAsGroup (es.foldl (fun done e => Keyed.put e.1 e.2 done) done)
        (gs.foldl (fun done e => Keyed.put e.1 e.2 done) done') from hd [] [] .nil
  induction hs with
  | nil => exact fun _ _ hd => hd
  | cons he _ ih => exact fun _ _ hd => ih _ _ (readsAsGroup_put he hd)

theorem keys_of_readsAsGroup {es : List (Value × Value)} {gs : List Group}
    (hs : List.Forall₂ h.ReadsAsGroup es gs) : Keyed.keys es = gs.map fun g => .text g.1 := by
  induction hs with
  | nil => rfl
  | cons he _ ih => rw [Keyed.keys, List.map_cons, List.map_cons, he.1, ← ih]

theorem rel_lookup {es : List (Value × Value)} {gs : List Group}
    (hs : List.Forall₂ h.ReadsAsGroup es gs) (name : Text) :
    Option.Rel h.ReadsAsList (field? name es) (gs.lookup name) := by
  induction hs with
  | nil => exact .none
  | @cons e g es gs he hs ih =>
    rw [field?, List.lookup_cons, List.lookup_cons, he.1]
    by_cases hn : name = g.1
    · rw [hn, beq_self_eq_true, beq_self_eq_true]
      exact .some he.2
    · rw [beq_eq_false_iff_ne.2 hn, beq_eq_false_iff_ne.2 fun hv => hn (Value.text.inj hv)]
      exact ih

end Heap

end Raw

namespace Tree

variable {h : Heap} {config : Value} {t : Tree}

theorem groups_of_ofRaw (ht : ofRaw h config = .ok t) :
    ∃ groups, h.groups? config = some groups ∧ List.Forall₂ h.ReadsAsGroup groups t.groups := by
  unfold ofRaw at ht
  split at ht
  · next a entries hv =>
    obtain ⟨gs, hg, rfl⟩ := exists_of_map_eq_ok ht
    refine ⟨Keyed.ofEntries entries, by rw [Heap.groups?, hv], ?_⟩
    exact Heap.readsAsGroup_ofEntries (Heap.readsAsGroup_of_listOf hg)
  · cases ht

/-- A path leads through a configuration where it leads through the tree that is read from it. -/
theorem place?_rel (ht : ofRaw h config = .ok t) (path : NodePath) :
    Option.Rel (fun r s => r.1 = s.1 ∧ h.ReadsAs r.2 s.2) (h.place? config path)
      (t.reach? path) := by
  obtain ⟨groups, hg, hf⟩ := groups_of_ofRaw ht
  match path with
  | .name name :: .index (.ofNat i) :: steps =>
    rw [Heap.place?, reach?, hg, Option.bind_some, Option.bind_assoc]
    refine rel_bind (Heap.rel_lookup hf name) fun value items hl => ?_
    obtain ⟨a, nodes, hs, hn⟩ := hl
    rw [hs, Option.bind_some]
    exact rel_bind (rel_getElem? hn i) fun v x hr => Heap.reach?_rel hr steps
  -- no other path leads anywhere
  | [] | [.name _] | .index _ :: _ | .name _ :: .name _ :: _
  | .name _ :: .index (.negSucc _) :: _ => exact .none

/-- The documents of the tree are the documents that are written, in the same places. -/
theorem reach?_doc_iff (ht : ofRaw h config = .ok t) {path : NodePath} {labels : List Text}
    {d : Doc} :
    t.reach? path = some (labels, .doc d) ↔ h.docAt? config path = some (labels, d) := by
  have hp := place?_rel ht path
  unfold Heap.docAt?
  revert hp
  generalize h.place? config path = r
  generalize t.reach? path = s
  intro hp
  cases hp with
  | none => simp
  | @some r s hrs =>
    obtain ⟨l, v⟩ := r
    obtain ⟨l', x⟩ := s
    obtain ⟨rfl, hr⟩ := hrs
    rcases Heap.readsAs_cases hr with ⟨e, rfl, hn⟩ | ⟨label, nodes, items, rfl, hn, -⟩
    · simp [hn]
    · simp [hn]

/-- The groups of the tree are those of the configuration, in its order. -/
theorem names_of_ofRaw (ht : ofRaw h config = .ok t) :
    (h.groups? config).map Keyed.keys = some (t.names.map .text) := by
  obtain ⟨groups, hg, hf⟩ := groups_of_ofRaw ht
  rw [hg, Option.map_some, Heap.keys_of_readsAsGroup hf, names, List.map_map]
  rfl

end Tree

end Sidebar
