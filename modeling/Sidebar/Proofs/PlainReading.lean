import Sidebar.Proofs.Plain

/-!
# Sidebar.Proofs.PlainReading: reading what is written down

`Plain.tree` reads a configuration that is written down in full.  It is `Tree.ofRaw` without heap
and ancestors: what can be written down has no object inside itself, so the tests for that never
say yes.

* `print?_of_represents`: a value is shown as what is written.
* `listAt_and_nodeAt_of_represents`: lists and nodes are read as what is written.
* `ofRaw_of_represents`: so are configurations.
-/

namespace Sidebar.Raw

/-! ## Reading -/

namespace Plain

variable {key : Text} {r : Plain} {entries : List (Plain × Plain)}

/-- The value is this text. -/
def isText (key : Text) : Plain → Bool
  | .text t => t == key
  | _ => false

/-- The value is absent. -/
def isNull : Plain → Bool
  | .null => true
  | _ => false

/-- The value under a text key. -/
def field? (key : Text) (entries : List (Plain × Plain)) : Option Plain :=
  (entries.find? fun e => isText key e.1).map (·.2)

/-- The value under a text key, unless it is null. -/
def given? (key : Text) (entries : List (Plain × Plain)) : Option Plain :=
  (field? key entries).filter fun r => !r.isNull

/-- Shows a value; `none` when it holds an integer that is too long. -/
def shown? (r : Plain) : Option Text := (Heap.empty.addPlain r).1.print? (Heap.empty.addPlain r).2

/-- The error of a fault that shows a value. -/
def showing (path : NodePath) (fault : Text → SchemaFault) (r : Plain) : ConfigError :=
  match r.shown? with
  | some shown => .schema ⟨path, fault shown⟩
  | none => .unshowable

/-- The type of a node that gives it as `type`. -/
def typeOf (path : NodePath) : Option Plain → Except ConfigError NodeType
  | none => .error (.schema ⟨path, .noType⟩)
  | some r =>
    if r.isText "doc" then .ok .doc
    else if r.isText "category" then .ok .category
    else .error (showing path .unknownType r)

/-- The label of a document with this id. -/
def docLabelOf (path : NodePath) (id : Text) : Option Plain → Except ConfigError Text
  | none => .ok (Label.ofId id)
  | some (.text label) => .ok label
  | some found => .error (.schema ⟨path, .docLabel found.typeName⟩)

/-- The document with what is given as `id` and as `label`. -/
def docOf (path : NodePath) (id label : Option Plain) : Except ConfigError Doc :=
  match id with
  | none => .error (.schema ⟨path, .noId⟩)
  | some (.text id) =>
    if id.isBlank then .error (showing path .badId (.text id))
    else
      match docLabelOf path id label with
      | .error e => .error e
      | .ok label => Doc.record id label
  | some found => .error (showing path .badId found)

/-- The label of a category. -/
def categoryLabelOf (path : NodePath) : Option Plain → Except ConfigError Text
  | none => .error (.schema ⟨path, .noLabel⟩)
  | some (.text label) => .ok label
  | some found => .error (.schema ⟨path, .categoryLabel found.typeName⟩)

theorem isText_iff : r.isText key = true ↔ r = .text key := by
  cases r with
  | atom a => cases a <;> simp [isText]
  | _ => simp [isText]

theorem isNull_iff : r.isNull = true ↔ r = .null := by
  cases r with
  | atom a => cases a <;> simp [isNull]
  | _ => simp [isNull]

theorem mem_of_field? (hr : field? key entries = some r) : (.text key, r) ∈ entries := by
  obtain ⟨⟨k, s⟩, he, rfl⟩ := Option.map_eq_some_iff.1 hr
  have hk : k.isText key = true := List.find?_some (p := fun e : Plain × Plain => isText key e.1) he
  obtain rfl := isText_iff.1 hk
  exact List.mem_of_find?_eq_some he

theorem sizeOf_lt_of_field? (hr : field? key entries = some r) : sizeOf r < sizeOf entries :=
  (sizeOf_lt_of_mem_entries (mem_of_field? hr)).2

mutual

/-- Reads what should be a list of nodes. -/
def itemsOf (path : NodePath) (r : Plain) : Except ConfigError (List Item) :=
  match r with
  | .list nodes => nodesOf path 0 nodes
  | .tuple nodes => nodesOf path 0 nodes
  | found => .error (.schema ⟨path, .itemsNotList found.typeName⟩)
termination_by sizeOf r

/-- Reads nodes of which the first has number `i`. -/
def nodesOf (path : NodePath) (i : Nat) (nodes : List Plain) : Except ConfigError (List Item) :=
  match nodes with
  | [] => .ok []
  | r :: nodes =>
    (nodeOf (path.child i) r).bind fun item =>
      (nodesOf path (i + 1) nodes).map fun items => item :: items
termination_by sizeOf nodes

/-- Reads a node. -/
def nodeOf (path : NodePath) (r : Plain) : Except ConfigError Item :=
  match r with
  | .text id => (docOf path (some (.text id)) none).map .doc
  | .mapping entries =>
    match typeOf path (given? "type" entries) with
    | .error e => .error e
    | .ok .doc => (docOf path (given? "id" entries) (given? "label" entries)).map .doc
    | .ok .category =>
      match categoryLabelOf path (given? "label" entries) with
      | .error e => .error e
      | .ok label =>
        match hi : field? "items" entries with
        | none => .error (.schema ⟨path, .noItems label⟩)
        | some items =>
          have := sizeOf_lt_of_field? hi
          (itemsOf path items).map (.category label)
  | found => .error (.schema ⟨path, .nodeNotMapping found.typeName⟩)
termination_by sizeOf r

end

/-- The category with what is given as `label` and what stands under `items`. -/
def categoryOf (path : NodePath) (label items : Option Plain) : Except ConfigError Item :=
  (categoryLabelOf path label).bind fun label =>
    match items with
    | none => .error (.schema ⟨path, .noItems label⟩)
    | some items => (itemsOf path items).map (.category label)

/-- A mapping is read by what stands under the four keys. -/
theorem nodeOf_mapping (path : NodePath) (entries : List (Plain × Plain)) :
    nodeOf path (.mapping entries) =
      (typeOf path (given? "type" entries)).bind fun type =>
        match type with
        | .doc => (docOf path (given? "id" entries) (given? "label" entries)).map .doc
        | .category => categoryOf path (given? "label" entries) (field? "items" entries) := by
  rw [nodeOf]
  cases typeOf path (given? "type" entries) with
  | error e => rfl
  | ok type =>
    cases type with
    | doc => rfl
    | category =>
      dsimp only [Except.bind]
      rw [categoryOf]
      cases categoryLabelOf path (given? "label" entries) with
      | error e => rfl
      | ok label =>
        dsimp only [Except.bind]
        split
        · next hi => rw [hi]
        · next hi => rw [hi]

/-- Reads the entries of a configuration. -/
def groupsOf : List (Plain × Plain) → Except ConfigError (List Group)
  | [] => .ok []
  | (.text name, r) :: entries =>
    if name = [] then .error (showing [] .groupName (.text name))
    else
      match itemsOf (.ofGroup name) r with
      | .error e => .error e
      | .ok items =>
        match groupsOf entries with
        | .error e => .error e
        | .ok groups => .ok ((name, items) :: groups)
  | (key, _) :: _ => .error (showing [] .groupName key)

/-- Reads a configuration. -/
def tree : Plain → Except ConfigError Tree
  | .mapping entries => (groupsOf entries).map Tree.ofGroups
  | found => .error (.schema ⟨[], .rootNotMapping found.typeName⟩)

end Plain

namespace Heap

variable {h t : Heap} {v w : Value} {r : Plain} {active active' : List Address}

/-! ## Showing -/

theorem printAll_of_represents {vs ws : List Value} {rs : List Plain}
    (hrs : ∀ r ∈ rs, ∀ v w, h.Represents v r → t.Represents w r →
      h.printFrom active v = t.printFrom active' w)
    (hvs : List.Forall₂ h.Represents vs rs) (hws : List.Forall₂ t.Represents ws rs) :
    h.printAll active vs = t.printAll active' ws := by
  induction hvs generalizing ws with
  | nil =>
    cases hws
    rw [printAll, printAll]
  | cons hv _ ih =>
    cases hws with
    | cons hw hws =>
      rw [printAll, printAll, hrs _ List.mem_cons_self _ _ hv hw,
        ih (fun r hr => hrs r (List.mem_cons_of_mem _ hr)) hws]

theorem printEntries_of_represents {es es' : List (Value × Value)} {ps : List (Plain × Plain)}
    (hps : ∀ r ∈ (Plain.mapping ps).parts, ∀ v w, h.Represents v r → t.Represents w r →
      h.printFrom active v = t.printFrom active' w)
    (hes : List.Forall₂ h.RepresentsEntry es ps) (hes' : List.Forall₂ t.RepresentsEntry es' ps) :
    h.printEntries active es = t.printEntries active' es' := by
  induction hes generalizing es' with
  | nil =>
    cases hes'
    rw [printEntries, printEntries]
  | cons he _ ih =>
    cases hes' with
    | cons he' hes' =>
      simp only [Plain.parts, List.flatMap_cons, List.forall_mem_append,
        List.forall_mem_cons] at hps ih
      rw [printEntries, printEntries, hps.1.1 _ _ he.1 he'.1, hps.1.2.1 _ _ he.2 he'.2,
        ih hps.2 hes']

/-- Values that are written alike are shown alike. -/
theorem printFrom_of_represents (hv : h.Represents v r) (hw : t.Represents w r)
    (he : h.Encloses active r) (he' : t.Encloses active' r) :
    h.printFrom active v = t.printFrom active' w := by
  induction r using Plain.parts_induction generalizing v w active active' with
  | step r ih =>
    have hparts : ∀ a a', (h.view v).address? = some a → (t.view w).address? = some a' →
        ∀ s ∈ r.parts, ∀ v' w', h.Represents v' s → t.Represents w' s →
          h.printFrom (a :: active) v' = t.printFrom (a' :: active') w' :=
      fun a a' ha ha' s hs v' w' hv' hw' =>
        ih s hs hv' hw' (he.cons hv ha hs) (he'.cons hw ha' hs)
    have hnot : ∀ a, (h.view v).address? = some a → a ∉ active := fun a => he.not_mem hv
    have hnot' : ∀ a, (t.view w).address? = some a → a ∉ active' := fun a => he'.not_mem hw
    rw [printFrom, printFrom]
    dsimp only
    cases hv with
    | @atom v a hv =>
      cases hw with
      | atom hw =>
        rw [hv, hw]
        cases a <;> rfl
    | @collection kind v a items rs hv hs =>
      cases hw with
      | @collection kind w a' items' rs hw hs' =>
        rw [hv] at hparts hnot ⊢
        rw [hw] at hparts hnot' ⊢
        have ha := hnot a address?_collection
        have ha' := hnot' a' address?_collection
        have hall := printAll_of_represents (hparts a a' address?_collection address?_collection)
          hs hs'
        cases kind <;> dsimp only [Collection.view] <;> rw [dif_neg ha, dif_neg ha', hall]
    | mapping hv hkeys hvalues =>
      cases hw with
      | mapping hw hkeys' hvalues' =>
        rw [hv] at hparts hnot ⊢
        rw [hw] at hparts hnot' ⊢
        dsimp only
        rw [dif_neg (hnot _ rfl), dif_neg (hnot' _ rfl),
          printEntries_of_represents (hparts _ _ rfl rfl)
            (forall₂_representsEntry_iff.2 ⟨hkeys, hvalues⟩)
            (forall₂_representsEntry_iff.2 ⟨hkeys', hvalues'⟩)]

theorem print?_of_represents (hr : h.Represents v r) : h.print? v = r.shown? :=
  printFrom_of_represents hr (represents_addPlain r) encloses_nil encloses_nil

/-! ## Fields -/

section Fields

variable {entries : List (Value × Value)} {es : List (Plain × Plain)} {path : NodePath}
  {type id label : Option Plain}

theorem Represents.isText_iff (hr : h.Represents v r) {t : Text} :
    r.isText t = true ↔ h.view v = .text t :=
  Plain.isText_iff.trans hr.text_iff.symm

theorem rel_field? (hes : List.Forall₂ h.RepresentsEntry entries es) (key : Text) :
    Option.Rel h.Represents (field? key entries) (Plain.field? key es) := by
  induction hes with
  | nil => exact .none
  | @cons e p entries es he _ ih =>
    obtain ⟨k, v⟩ := e
    have hkey : (Value.text key == k) = p.1.isText key := by
      rw [Bool.eq_iff_iff, he.1.isText_iff, beq_iff_eq]
      exact ⟨fun hk => hk ▸ rfl, fun hk => (view_eq_text hk).symm⟩
    rw [field?, List.lookup_cons, hkey, Plain.field?, List.find?_cons]
    cases p.1.isText key with
    | true => exact .some he.2
    | false => exact ih

theorem rel_given? (hes : List.Forall₂ h.RepresentsEntry entries es) (key : Text) :
    Option.Rel h.Represents (h.given? key entries) (Plain.given? key es) := by
  rw [given?, Plain.given?]
  have hf := rel_field? hes key
  generalize field? key entries = found at hf ⊢
  generalize Plain.field? key es = written at hf ⊢
  cases hf with
  | none => exact .none
  | @some v r hr =>
    have hnull : decide (h.view v ≠ .null) = !r.isNull := by
      rw [Bool.eq_iff_iff, decide_eq_true_iff, Ne, hr.null_iff, Bool.not_eq_true',
        ← Bool.not_eq_true, Plain.isNull_iff]
    rw [Option.filter_some, Option.filter_some, hnull]
    cases r.isNull with
    | true => exact .none
    | false => exact .some hr

theorem showing_of_represents (hr : h.Represents v r) (fault : Text → SchemaFault) :
    h.showing path fault v = r.showing path fault := by
  rw [showing, print?_of_represents hr]
  rfl

/-! Each reader gives the same where it is given the same. -/

theorem typeOfEntries_of_represents
    (ht : Option.Rel h.Represents (h.given? "type" entries) type) :
    NodeType.ofEntries h path entries = Plain.typeOf path type := by
  rw [NodeType.ofEntries]
  generalize h.given? "type" entries = found at ht ⊢
  cases ht with
  | none => rfl
  | some hr =>
    simp only [Plain.typeOf, hr.isText_iff, showing_of_represents hr]

theorem docLabelOf_of_represents
    (hl : Option.Rel h.Represents (h.given? "label" entries) label) (id : Text) :
    Doc.labelOf h path id entries = Plain.docLabelOf path id label := by
  rw [Doc.labelOf]
  generalize h.given? "label" entries = found at hl ⊢
  cases hl with
  | none => rfl
  | some hr =>
    have hs := hr.sameShape
    rw [Option.map_some]
    generalize h.view _ = found at hs ⊢
    cases hs <;> rfl

theorem docOfEntries_of_represents (hid : Option.Rel h.Represents (h.given? "id" entries) id)
    (hl : Option.Rel h.Represents (h.given? "label" entries) label) :
    Doc.ofEntries h path entries = Plain.docOf path id label := by
  rw [Doc.ofEntries]
  generalize h.given? "id" entries = found at hid ⊢
  cases hid with
  | none => rfl
  | some hr =>
    have hs := hr.sameShape
    simp only [showing_of_represents hr, docLabelOf_of_represents hl]
    generalize h.view _ = found at hs ⊢
    cases hs <;> rfl

/-- A bare id is read as entries that give nothing else. -/
theorem docOfId_of_represents (id : Text) :
    Doc.ofId h path id = Plain.docOf path (some (.text id)) none := by
  have he : h.RepresentsEntry (.text "id", .text id) (.text "id", .text id) :=
    ⟨.atom rfl, .atom rfl⟩
  exact docOfEntries_of_represents (rel_given? (.cons he .nil) "id")
    (rel_given? (.cons he .nil) "label")

theorem categoryHead_of_represents
    (hl : Option.Rel h.Represents (h.given? "label" entries) label) :
    categoryHead h path entries =
      (Plain.categoryLabelOf path label).bind fun label =>
        match field? "items" entries with
        | none => .error (.schema ⟨path, .noItems label⟩)
        | some items => .ok (label, items) := by
  rw [categoryHead]
  generalize h.given? "label" entries = found at hl ⊢
  cases hl with
  | none => rfl
  | some hr =>
    have hs := hr.sameShape
    rw [Option.map_some]
    generalize h.view _ = found at hs ⊢
    cases hs <;> rfl

end Fields

/-! ## Lists and nodes -/

section Nodes

variable {path : NodePath} {ancestors : List Address}

theorem nodesFrom_of_represents {nodes : List Value} {rs : List Plain} (i : Nat)
    (hnode : ∀ r ∈ rs, ∀ w, h.Represents w r → ∀ path,
      Item.nodeAt h path ancestors w = r.nodeOf path)
    (hs : List.Forall₂ h.Represents nodes rs) :
    Item.nodesFrom h path ancestors i nodes = Plain.nodesOf path i rs := by
  induction hs generalizing i with
  | nil => rw [Item.nodesFrom, Plain.nodesOf]
  | cons hv _ ih =>
    rw [Item.nodesFrom, Plain.nodesOf, hnode _ List.mem_cons_self _ hv,
      ih (i + 1) fun r hr => hnode r (List.mem_cons_of_mem _ hr)]
    cases Plain.nodeOf (path.child i) _ with
    | error e => rfl
    | ok item => cases Plain.nodesOf path (i + 1) _ <;> rfl

theorem sequence?_of_represents (hr : h.Represents v r)
    (hn : ∀ rs, r ≠ .list rs ∧ r ≠ .tuple rs) : h.sequence? v = none := by
  have hs := hr.sameShape
  rw [sequence?]
  generalize h.view v = found at hs ⊢
  cases hs with
  | list => exact absurd rfl (hn _).1
  | tuple => exact absurd rfl (hn _).2
  | _ => rfl

/-- What is no list is not read, and only its type is told. -/
theorem listAt_of_represents_other (hr : h.Represents v r)
    (hn : ∀ rs, r ≠ .list rs ∧ r ≠ .tuple rs) :
    Item.listAt h path ancestors v = r.itemsOf path := by
  rw [listAt_of_other (sequence?_of_represents hr hn), hr.typeName_eq, Plain.itemsOf.eq_def]
  split
  · exact absurd rfl (hn _).1
  · exact absurd rfl (hn _).2
  · rfl

theorem listAt_of_represents (hr : h.Represents v r) (he : h.Encloses ancestors r)
    (ih : ∀ s ∈ r.parts, ∀ w ancestors, h.Represents w s → h.Encloses ancestors s → ∀ path,
      Item.nodeAt h path ancestors w = s.nodeOf path) :
    Item.listAt h path ancestors v = r.itemsOf path := by
  cases id hr with
  | atom => exact listAt_of_represents_other hr (by simp)
  | mapping => exact listAt_of_represents_other hr (by simp)
  | @collection kind v a nodes rs hv hs =>
    have ha : (h.view v).address? = some a := by rw [hv, address?_collection]
    have hread : h.sequence? v = some (a, nodes) →
        Item.listAt h path ancestors v = Plain.nodesOf path 0 rs := fun hseq => by
      rw [listAt_of_sequence? hseq, if_neg (he.not_mem hr ha)]
      exact nodesFrom_of_represents 0 (fun s hs w hw => ih s hs w _ hw (he.cons hr ha hs)) hs
    rw [sequence?, hv] at hread
    cases kind with
    | list => rw [hread rfl, Plain.itemsOf]
    | tuple => rw [hread rfl, Plain.itemsOf]
    | set => exact listAt_of_represents_other hr (by simp)

theorem categoryOf_of_represents {a : Address} {items : Option Value} {written : Option Plain}
    {label : Option Plain} (hi : Option.Rel h.Represents items written)
    (hread : ∀ w s, written = some s → h.Represents w s →
      Item.listAt h path (a :: ancestors) w = s.itemsOf path) :
    ((Plain.categoryLabelOf path label).bind fun label =>
        match items with
        | none => .error (.schema ⟨path, .noItems label⟩)
        | some items => .ok (label, items)).bind (fun head =>
      (Item.listAt h path (a :: ancestors) head.2).map (.category head.1)) =
      Plain.categoryOf path label written := by
  rw [Plain.categoryOf]
  cases Plain.categoryLabelOf path label with
  | error e => rfl
  | ok label =>
    cases hi with
    | none => rfl
    | some hw => exact congrArg (Except.map (Item.category label)) (hread _ _ rfl hw)

theorem nodeAt_mapping_of_represents {a : Address} {entries : List (Value × Value)}
    {es : List (Plain × Plain)} (hv : h.view v = .mapping a entries) (ha : a ∉ ancestors)
    (hes : List.Forall₂ h.RepresentsEntry entries es)
    (hitems : ∀ w s, Plain.field? "items" es = some s → h.Represents w s →
      Item.listAt h path (a :: ancestors) w = s.itemsOf path) :
    Item.nodeAt h path ancestors v = (Plain.mapping es).nodeOf path := by
  have hgiven := rel_given? hes
  rw [Plain.nodeOf_mapping, ← typeOfEntries_of_represents (hgiven "type")]
  by_cases hc : h.HasType "category" entries
  · have ht : NodeType.ofEntries h path entries = .ok .category := typeOfEntries_eq_ok_iff.2 hc
    rw [nodeAt_of_category hv ha hc, ht, categoryHead_of_represents (hgiven "label")]
    exact categoryOf_of_represents (rel_field? hes "items") hitems
  · rw [nodeAt_of_not_category hv ha hc,
      docOfEntries_of_represents (hgiven "id") (hgiven "label")]
    cases ht : NodeType.ofEntries h path entries with
    | error e => rfl
    | ok type =>
      cases type with
      | doc => rfl
      | category => exact absurd (typeOfEntries_eq_ok_iff.1 ht) hc

/-- What is no mapping is read as an id if it is a text, and otherwise only its type is told. -/
theorem nodeAt_of_represents_other (hr : h.Represents v r) (hn : ∀ es, r ≠ .mapping es) :
    Item.nodeAt h path ancestors v = r.nodeOf path := by
  have hv : ∀ a entries, h.view v ≠ .mapping a entries := by
    intro a entries hv
    obtain ⟨es, rfl, -⟩ := hr.of_mapping hv
    exact hn es rfl
  have hs := hr.sameShape
  rw [nodeAt_of_other hv, Plain.nodeOf.eq_def]
  generalize h.view v = found at hs ⊢
  cases hs with
  | text id => exact congrArg (Except.map Item.doc) (docOfId_of_represents id)
  | mapping => exact absurd rfl (hn _)
  | _ => rfl

/-- **Lists and nodes are read as what is written.** -/
theorem listAt_and_nodeAt_of_represents (r : Plain) :
    ∀ v ancestors, h.Represents v r → h.Encloses ancestors r → ∀ path,
      Item.listAt h path ancestors v = r.itemsOf path ∧
        Item.nodeAt h path ancestors v = r.nodeOf path := by
  induction r using Plain.parts_induction with
  | step r ih =>
    intro v ancestors hr he path
    refine ⟨listAt_of_represents hr he fun s hs w ancestors hw he path =>
      (ih s hs w ancestors hw he path).2, ?_⟩
    by_cases hm : ∃ es, r = .mapping es
    · obtain ⟨es, rfl⟩ := hm
      cases id hr with
      | @mapping v a entries es hv hkeys hvalues =>
        have ha : (h.view v).address? = some a := by rw [hv]; rfl
        refine nodeAt_mapping_of_represents hv (he.not_mem hr ha)
          (forall₂_representsEntry_iff.2 ⟨hkeys, hvalues⟩) fun w s hs hw => ?_
        have hpart : s ∈ (Plain.mapping es).parts :=
          Plain.values_subset_parts es (List.mem_map_of_mem (Plain.mem_of_field? hs))
        exact (ih s hpart w _ hw (he.cons hr ha hpart) path).1
    · push Not at hm
      exact nodeAt_of_represents_other hr hm

end Nodes

/-! ## Configurations -/

theorem listOf_of_represents {entries : List (Value × Value)} {es : List (Plain × Plain)}
    (hes : List.Forall₂ h.RepresentsEntry entries es) :
    Group.listOf h entries = Plain.groupsOf es := by
  induction hes with
  | nil => rfl
  | @cons e p entries es he _ ih =>
    obtain ⟨key, v⟩ := e
    obtain ⟨k, r⟩ := p
    obtain ⟨hkey, hr⟩ := he
    have hread := fun path => (listAt_and_nodeAt_of_represents r v [] hr encloses_nil path).1
    rw [Group.listOf, showing_of_represents hkey, ih]
    simp only [hread]
    have hs := hkey.sameShape
    generalize h.view key = found at hs ⊢
    cases hs <;> rfl

/-- **A configuration is read as what is written.** -/
theorem ofRaw_of_represents {config : Value} (hr : h.Represents config r) :
    Tree.ofRaw h config = r.tree := by
  rw [Tree.ofRaw]
  cases id hr with
  | mapping hv hkeys hvalues =>
    rw [hv, Plain.tree, ← listOf_of_represents (forall₂_representsEntry_iff.2 ⟨hkeys, hvalues⟩)]
  | @atom config a hv =>
    rw [hv]
    cases a <;> rfl
  | @collection kind config a items rs hv =>
    rw [hv]
    cases kind <;> rfl

end Heap

end Sidebar.Raw
