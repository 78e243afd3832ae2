import Sidebar.Proofs.Entries

/-!
# Sidebar.Proofs.Grammar: which configurations are read, and where reading stops

`Heap.WellFormed` says what has to stand at a place of a configuration, and `Heap.error?` what
reading finds wrong with a place when it looks at nothing else.

* `errorOf_ofRaw`: reading reports the first error of a single place, in document order.
* `error?_eq_none_iff`: a place shows no error exactly when it is well-formed.
* `ofRaw_stops_at_first`: a configuration is read exactly when every place is well-formed, and an
  error is reported at the first place that is not.
-/

namespace Sidebar

open Raw

/-- The error that an outcome is. -/
def errorOf {ε α : Type} : Except ε α → Option ε
  | .error e => some e
  | .ok _ => none

theorem errorOf_map {ε α β : Type} (f : α → β) (r : Except ε α) :
    errorOf (r.map f) = errorOf r := by
  cases r <;> rfl

theorem errorOf_eq_some_iff {ε α : Type} {r : Except ε α} {e : ε} :
    errorOf r = some e ↔ r = .error e := by
  cases r <;> simp [errorOf]

theorem errorOf_eq_none_iff {ε α : Type} {r : Except ε α} :
    errorOf r = none ↔ ∃ a, r = .ok a := by
  cases r <;> simp [errorOf]

namespace Raw

namespace Heap

variable {h : Heap} {config : Value} {path : NodePath} {ancestors : List Address} {v : Value}
  {entries : List (Value × Value)}

/-! ## What has to stand at a place -/

/-- What stands at a place is of the right kind.  Whether the values inside it are, is said at
their own places. -/
def WellFormed (h : Heap) (p : Position) : Prop :=
  match p.role with
  | .config => ∃ a entries, h.view p.value = .mapping a entries
  | .groupName => ∃ name, h.view p.value = .text name ∧ name ≠ []
  | .items ancestors => ∃ a nodes, h.sequence? p.value = some (a, nodes) ∧ a ∉ ancestors
  | .node ancestors =>
    (∃ id, h.view p.value = .text id ∧ ValidId id) ∨
      ∃ a entries, h.view p.value = .mapping a entries ∧
        (h.HasType "doc" entries ∧ h.WritesDoc entries ∨
          h.HasType "category" entries ∧ a ∉ ancestors ∧ h.WritesCategory entries)

/-! ## The errors of single places -/

/-- What reading finds wrong with a place before it goes on to the next one. -/
def error? (h : Heap) (p : Position) : Option ConfigError :=
  match p.role with
  | .config =>
    match h.view p.value with
    | .mapping .. => none
    | found => some (.schema ⟨p.path, .rootNotMapping found.typeName⟩)
  | .groupName =>
    match h.view p.value with
    | .text name => if name = [] then some (h.showing p.path .groupName p.value) else none
    | _ => some (h.showing p.path .groupName p.value)
  | .items ancestors =>
    match h.sequence? p.value with
    | none => some (.schema ⟨p.path, .itemsNotList (h.view p.value).typeName⟩)
    | some (a, _) => if a ∈ ancestors then some (.schema ⟨p.path, .itemsInItself⟩) else none
  | .node ancestors =>
    match h.view p.value with
    | .text id => errorOf (Doc.ofId h p.path id)
    | .mapping a entries =>
      if a ∈ ancestors then some (.schema ⟨p.path, .nodeInItself⟩)
      else
        match NodeType.ofEntries h p.path entries with
        | .error e => some e
        | .ok .doc => errorOf (Doc.ofEntries h p.path entries)
        | .ok .category => errorOf (categoryHead h p.path entries)
    | found => some (.schema ⟨p.path, .nodeNotMapping found.typeName⟩)

/-- Reading nodes one after the other reports the first error of their places. -/
theorem errorOf_nodesFrom
    (hnode : ∀ path v, errorOf (Item.nodeAt h path ancestors v) =
      (h.nodePositions path ancestors v).findSome? h.error?)
    (i : Nat) (nodes : List Value) :
    errorOf (Item.nodesFrom h path ancestors i nodes) =
      ((nodes.zipIdx i).flatMap fun n =>
        h.nodePositions (path.child n.2) ancestors n.1).findSome? h.error? := by
  induction nodes generalizing i with
  | nil =>
    rw [Item.nodesFrom]
    rfl
  | cons v nodes ih =>
    rw [Item.nodesFrom, List.zipIdx_cons, List.flatMap_cons, List.findSome?_append, ← hnode, ← ih]
    split
    · next e he =>
      rw [he]
      rfl
    · next item hi =>
      rw [hi]
      split
      · next e he =>
        rw [he]
        rfl
      · next items his =>
        rw [his]
        rfl

/-- A list of nodes is read up to the first error of its places if nodes inside it are. -/
theorem errorOf_listAt
    (ih : ∀ a < h.objects.size, a ∉ ancestors →
      ∀ path v, errorOf (Item.nodeAt h path (a :: ancestors) v) =
        (h.nodePositions path (a :: ancestors) v).findSome? h.error?)
    (path : NodePath) (v : Value) :
    errorOf (Item.listAt h path ancestors v) =
      (h.itemsPositions path ancestors v).findSome? h.error? := by
  rw [Item.listAt, itemsPositions, List.findSome?_cons, error?]
  dsimp only
  split
  · next hs =>
    rw [hs]
    rfl
  · next a nodes hs =>
    rw [hs]
    dsimp only
    by_cases ha : a ∈ ancestors
    · rw [dif_pos ha, if_pos ha]
      rfl
    · rw [dif_neg ha, if_neg ha, dif_neg ha]
      exact errorOf_nodesFrom (ih a (lt_size_of_sequence? hs) ha) 0 nodes

/-- A node is read up to the first error of its places if lists inside it are. -/
theorem errorOf_nodeAt
    (ih : ∀ a < h.objects.size, a ∉ ancestors →
      ∀ path v, errorOf (Item.listAt h path (a :: ancestors) v) =
        (h.itemsPositions path (a :: ancestors) v).findSome? h.error?)
    (path : NodePath) (v : Value) :
    errorOf (Item.nodeAt h path ancestors v) =
      (h.nodePositions path ancestors v).findSome? h.error? := by
  rw [Item.nodeAt, nodePositions, List.findSome?_cons, error?]
  dsimp only
  split
  · next id hv =>
    rw [hv]
    dsimp only
    rw [errorOf_map]
    cases errorOf (Doc.ofId h path id) <;> rfl
  · next a entries hv =>
    rw [hv]
    dsimp only
    by_cases ha : a ∈ ancestors
    · rw [dif_pos ha, if_pos ha]
      rfl
    · rw [dif_neg ha, if_neg ha, dif_neg ha]
      cases ht : NodeType.ofEntries h path entries with
      | error e => rfl
      | ok type =>
        have htype := typeOfEntries_eq_ok_iff.1 ht
        cases type with
        | doc =>
          dsimp only
          rw [errorOf_map, if_neg htype.not_category]
          cases errorOf (Doc.ofEntries h path entries) <;> rfl
        | category =>
          dsimp only [NodeType.name] at htype ⊢
          rw [if_pos htype]
          cases hc : categoryHead h path entries with
          | error e => rfl
          | ok head =>
            obtain ⟨label, items⟩ := head
            dsimp only [errorOf]
            rw [(category_of_head hc).2]
            exact (errorOf_map _ _).trans (ih a (lt_size_of_mapping hv) ha path items)
  · next ht hm =>
    generalize h.view v = found at ht hm ⊢
    cases found with
    | text id => exact (ht id rfl).elim
    | mapping a entries => exact (hm a entries rfl).elim
    | _ => rfl

theorem errorOf_reading (ancestors : List Address) :
    (∀ path v, errorOf (Item.listAt h path ancestors v) =
        (h.itemsPositions path ancestors v).findSome? h.error?) ∧
      ∀ path v, errorOf (Item.nodeAt h path ancestors v) =
        (h.nodePositions path ancestors v).findSome? h.error? := by
  induction ancestors using ancestors_induction (h := h) with
  | step ancestors ih =>
    exact ⟨errorOf_listAt fun a hlt ha => (ih a hlt ha).2,
      errorOf_nodeAt fun a hlt ha => (ih a hlt ha).1⟩

theorem errorOf_listOf (entries : List (Value × Value)) :
    errorOf (Group.listOf h entries) =
      (entries.flatMap h.groupPositions).findSome? h.error? := by
  induction entries with
  | nil => rfl
  | cons e entries ih =>
    obtain ⟨key, v⟩ := e
    rw [Group.listOf, List.flatMap_cons, List.findSome?_append, groupPositions, List.findSome?_cons,
      error?]
    generalize h.view key = found
    cases found with
    | text name =>
      dsimp only
      by_cases hn : name = []
      · rw [if_pos hn, if_pos hn]
        rfl
      · rw [if_neg hn, if_neg hn, ← (errorOf_reading []).1, ← ih]
        cases Item.listAt h (.ofGroup name) [] v with
        | error e => rfl
        | ok items => cases Group.listOf h entries <;> rfl
    | _ => rfl

/-- **Reading reports the first error** among those of single places, in document order. -/
theorem errorOf_ofRaw (h : Heap) (config : Value) :
    errorOf (Tree.ofRaw h config) = (h.positions config).findSome? h.error? := by
  rw [Tree.ofRaw, positions, List.findSome?_cons, error?]
  generalize h.view config = found
  cases found with
  | mapping a entries =>
    dsimp only
    rw [errorOf_map]
    exact errorOf_listOf entries
  | _ => rfl

/-! ## Well-formed places show no error -/

theorem error?_text {id : Text} (hv : h.view v = .text id) :
    h.error? ⟨path, .node ancestors, v⟩ = errorOf (Doc.ofId h path id) := by
  rw [error?]
  dsimp only
  rw [hv]

/-- The error that a mapping shows as a node, `a` being its address. -/
inductive MappingReading (h : Heap) (path : NodePath) (ancestors : List Address) (a : Address)
    (entries : List (Value × Value)) : Option ConfigError → Prop
  | inItself (ha : a ∈ ancestors) (hc : h.HasType "category" entries) :
      MappingReading h path ancestors a entries (some (.schema ⟨path, .nodeInItself⟩))
  | noType (hg : h.given? "type" entries = none) :
      MappingReading h path ancestors a entries (some (.schema ⟨path, .noType⟩))
  | unknownType {w : Value} (hw : h.GivesUnknownType entries w) :
      MappingReading h path ancestors a entries (some (h.showing path .unknownType w))
  | doc (ht : h.HasType "doc" entries) :
      MappingReading h path ancestors a entries (errorOf (Doc.ofEntries h path entries))
  | category (ha : a ∉ ancestors) (ht : h.HasType "category" entries) :
      MappingReading h path ancestors a entries (errorOf (categoryHead h path entries))

theorem mappingReading {a : Address} (hv : h.view v = .mapping a entries)
    (hanc : h.AreAncestors ancestors) :
    h.MappingReading path ancestors a entries (h.error? ⟨path, .node ancestors, v⟩) := by
  rw [error?]
  dsimp only
  rw [hv]
  dsimp only
  by_cases ha : a ∈ ancestors
  · rw [if_pos ha]
    exact .inItself ha (hanc a ha v entries hv)
  · rw [if_neg ha]
    have hr := h.typeReading path entries
    generalize NodeType.ofEntries h path entries = r at hr ⊢
    cases hr with
    | missing hg => exact .noType hg
    | unknown hw => exact .unknownType hw
    | @read type ht =>
      cases type with
      | doc => exact .doc ht
      | category => exact .category ha ht

/-- A mapping shows no error as a node exactly when it makes a document, or a category outside
itself. -/
theorem error?_mapping_eq_none_iff {a : Address} (hv : h.view v = .mapping a entries)
    (hanc : h.AreAncestors ancestors) :
    h.error? ⟨path, .node ancestors, v⟩ = none ↔
      h.HasType "doc" entries ∧ h.WritesDoc entries ∨
        h.HasType "category" entries ∧ a ∉ ancestors ∧ h.WritesCategory entries := by
  have hr : h.MappingReading path ancestors a entries _ := mappingReading hv hanc
  generalize h.error? ⟨path, .node ancestors, v⟩ = r at hr ⊢
  cases hr with
  | inItself ha hc => simp [ha, hc.not_doc]
  | noType hg => simp [not_hasType_of_given? hg]
  | unknownType hw =>
    have hd : ¬ h.HasType "doc" entries := hw.not_hasType .doc
    have hc : ¬ h.HasType "category" entries := hw.not_hasType .category
    simp [hd, hc]
  | doc ht =>
    rw [errorOf_eq_none_iff, exists_docOfEntries_iff]
    simp [ht, ht.not_category]
  | category ha ht =>
    rw [errorOf_eq_none_iff, exists_categoryHead_iff]
    simp [ha, ht, ht.not_doc]

/-- **A place shows no error exactly when it is well-formed.** -/
theorem error?_eq_none_iff {p : Position} (hp : h.AreAncestors p.role.ancestors) :
    h.error? p = none ↔ h.WellFormed p := by
  obtain ⟨path, role, v⟩ := p
  cases role with
  | config =>
    rw [error?, WellFormed]
    dsimp only
    cases h.view v <;> simp
  | groupName =>
    rw [error?, WellFormed]
    dsimp only
    cases h.view v <;> simp
  | items ancestors =>
    rw [error?, WellFormed]
    dsimp only
    cases h.sequence? v with
    | none => simp
    | some s =>
      obtain ⟨a, nodes⟩ := s
      by_cases ha : a ∈ ancestors <;> simp [ha]
  | node ancestors =>
    cases hv : h.view v with
    | mapping a entries =>
      have hm : h.error? ⟨path, .node ancestors, v⟩ = none ↔ _ := error?_mapping_eq_none_iff hv hp
      rw [hm, WellFormed]
      simp [hv]
    | text id =>
      rw [error?_text hv, WellFormed, errorOf_eq_none_iff, Doc.ofId, exists_docOfEntries_iff,
        writesDoc_bare_iff]
      simp [hv]
    | _ => simp [error?, WellFormed, hv]

/-! ## Where reading stops -/

/-- The first place in document order at which the wrong thing stands. -/
def FirstIllFormed (h : Heap) (config : Value) (p : Position) : Prop :=
  ∃ before behind, h.positions config = before ++ p :: behind ∧
    (∀ q ∈ before, h.WellFormed q) ∧ ¬ h.WellFormed p

theorem ofRaw_eq_ok_iff :
    (∃ t, Tree.ofRaw h config = .ok t) ↔ ∀ p ∈ h.positions config, h.WellFormed p := by
  rw [← errorOf_eq_none_iff, errorOf_ofRaw, List.findSome?_eq_none_iff]
  exact forall₂_congr fun p hp => error?_eq_none_iff (areAncestors_of_mem hp)

/-- An error is that of the first place that is not well-formed. -/
theorem ofRaw_eq_error_iff {e : ConfigError} :
    Tree.ofRaw h config = .error e ↔ ∃ p, h.FirstIllFormed config p ∧ h.error? p = some e := by
  rw [← errorOf_eq_some_iff, errorOf_ofRaw, List.findSome?_eq_some_iff]
  have hwell : ∀ q ∈ h.positions config, h.error? q = none ↔ h.WellFormed q :=
    fun q hq => error?_eq_none_iff (areAncestors_of_mem hq)
  constructor
  · rintro ⟨before, p, behind, hlist, he, hbefore⟩
    refine ⟨p, ⟨before, behind, hlist, fun q hq => ?_, fun hp => ?_⟩, he⟩
    · exact (hwell q (by simp [hlist, hq])).1 (hbefore q hq)
    · rw [(hwell p (by simp [hlist])).2 hp] at he
      cases he
  · rintro ⟨p, ⟨before, behind, hlist, hbefore, -⟩, he⟩
    exact ⟨before, p, behind, hlist, he, fun q hq =>
      (hwell q (by simp [hlist, hq])).2 (hbefore q hq)⟩

end Heap

end Raw

/-- A schema error is reported at this path; errors of other kinds have none. -/
def ConfigError.IsAt (path : NodePath) : ConfigError → Prop
  | .schema e => e.path = path
  | .surrogateId => True
  | .unshowable => True

namespace Raw.Heap

variable {h : Heap} {config : Value} {path : NodePath} {entries : List (Value × Value)}
  {e : ConfigError}

theorem isAt_showing (fault : Text → SchemaFault) (v : Value) :
    (h.showing path fault v).IsAt path := by
  unfold showing
  split
  · rfl
  · trivial

theorem isAt_of_typeOfEntries (hr : NodeType.ofEntries h path entries = .error e) :
    e.IsAt path := by
  have ht := h.typeReading path entries
  rw [hr] at ht
  cases ht with
  | missing => exact rfl
  | unknown => exact isAt_showing _ _

theorem isAt_of_docOfEntries (hr : Doc.ofEntries h path entries = .error e) : e.IsAt path := by
  have hd := h.docReading path entries
  rw [hr] at hd
  cases hd with
  | noId => exact rfl
  | badId => exact isAt_showing _ _
  | badLabel => exact rfl
  | refused => exact trivial

theorem isAt_of_categoryHead (hr : categoryHead h path entries = .error e) : e.IsAt path := by
  have hc := h.headReading path entries
  rw [hr] at hc
  cases hc <;> exact rfl

/-- The error of a place is reported there. -/
theorem isAt_of_error? {p : Position} (he : h.error? p = some e) : e.IsAt p.path := by
  obtain ⟨path, role, v⟩ := p
  cases role with
  | config =>
    rw [error?] at he
    dsimp only at he
    split at he <;> cases he
    rfl
  | groupName =>
    rw [error?] at he
    dsimp only at he
    split at he
    · split at he <;> cases he
      exact isAt_showing _ _
    · cases he
      exact isAt_showing _ _
  | items ancestors =>
    rw [error?] at he
    dsimp only at he
    split at he
    · cases he
      rfl
    · split at he <;> cases he
      rfl
  | node ancestors =>
    rw [error?] at he
    dsimp only at he
    split at he
    · exact isAt_of_docOfEntries (errorOf_eq_some_iff.1 he)
    · split at he
      · cases he
        rfl
      · split at he
        · next ht =>
          cases he
          exact isAt_of_typeOfEntries ht
        · exact isAt_of_docOfEntries (errorOf_eq_some_iff.1 he)
        · exact isAt_of_categoryHead (errorOf_eq_some_iff.1 he)
    · cases he
      rfl

/-- **Which configurations are read, and where reading stops.**  A configuration is read exactly
when the right thing stands at every place; otherwise the error is the one of the first place, in
document order, where it does not. -/
theorem ofRaw_stops_at_first (h : Heap) (config : Value) :
    ((∃ t, Tree.ofRaw h config = .ok t) ↔ ∀ p ∈ h.positions config, h.WellFormed p) ∧
      ∀ e, Tree.ofRaw h config = .error e → ∃ p, h.FirstIllFormed config p ∧ e.IsAt p.path := by
  refine ⟨ofRaw_eq_ok_iff, fun e he => ?_⟩
  obtain ⟨p, hp, hpe⟩ := ofRaw_eq_error_iff.1 he
  exact ⟨p, hp, isAt_of_error? hpe⟩

end Raw.Heap

end Sidebar
