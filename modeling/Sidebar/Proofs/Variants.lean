import Sidebar.Proofs.Calls
import Sidebar.Proofs.PlainReading

/-!
# Sidebar.Proofs.Variants: configurations that differ in what is not read

A configuration can be edited in ways that do not matter: keys that no reader looks up, the order of
the keys of a node, the two ways of giving a bare id, a label that is null or absent, a list for a
tuple.  `Plain.Edit` is one such edit at any depth.

* `nodeOf_congr`: a mapping is read by its type and the fields that this type has.
* `Edit.sameReading`: an edit changes neither a tree nor an error.
* `ofRaw_ignores_edits`: nor does any number of edits.
-/

namespace Sidebar.Raw

namespace Plain

variable {key : Text} {r r' : Plain} {e : Plain × Plain}
  {entries entries' before behind : List (Plain × Plain)} {path : NodePath}

/-! ## Edits -/

/-- What a value stands for in a configuration. -/
inductive Standing
  | config
  | items
  | node

/-- No text is a key twice. -/
def DistinctTexts (entries : List (Plain × Plain)) : Prop :=
  entries.Pairwise fun e f => ∀ key : Text, e.1 = .text key → f.1 ≠ .text key

/-- One edit, by which the first value becomes the second. -/
inductive Edit : Standing → Plain → Plain → Prop
  /-- A key that no reader looks up is added to a node. -/
  | other {before behind : List (Plain × Plain)} {key : Plain} (value : Plain)
      (hk : ∀ k ∈ (["type", "id", "label", "items"] : List Text), key ≠ .text k) :
      Edit .node (.mapping (before ++ behind)) (.mapping (before ++ (key, value) :: behind))
  /-- An id is added to a category. -/
  | idOfCategory {before behind : List (Plain × Plain)} (value : Plain)
      (hc : field? "type" (before ++ behind) = some (.text "category")) :
      Edit .node (.mapping (before ++ behind))
        (.mapping (before ++ (.text "id", value) :: behind))
  /-- Items are added to a document. -/
  | itemsOfDoc {before behind : List (Plain × Plain)} (value : Plain)
      (hd : field? "type" (before ++ behind) = some (.text "doc")) :
      Edit .node (.mapping (before ++ behind))
        (.mapping (before ++ (.text "items", value) :: behind))
  /-- The keys of a node are reordered. -/
  | reorder {entries entries' : List (Plain × Plain)} (hp : entries.Perm entries')
      (hd : DistinctTexts entries) : Edit .node (.mapping entries) (.mapping entries')
  /-- A bare id is spelled out. -/
  | spellOut (id : Text) :
      Edit .node (.text id) (.mapping [(.text "type", .text "doc"), (.text "id", .text id)])
  /-- A label that is absent is given as null. -/
  | nullLabel {before behind : List (Plain × Plain)}
      (hl : field? "label" (before ++ behind) = none) :
      Edit .node (.mapping (before ++ behind))
        (.mapping (before ++ (.text "label", .null) :: behind))
  /-- A list of nodes becomes a tuple. -/
  | retype (nodes : List Plain) : Edit .items (.list nodes) (.tuple nodes)
  -- the places where edits are made
  | inList {before behind : List Plain} {r r' : Plain} (he : Edit .node r r') :
      Edit .items (.list (before ++ r :: behind)) (.list (before ++ r' :: behind))
  | inTuple {before behind : List Plain} {r r' : Plain} (he : Edit .node r r') :
      Edit .items (.tuple (before ++ r :: behind)) (.tuple (before ++ r' :: behind))
  | inItems {before behind : List (Plain × Plain)} {r r' : Plain} (he : Edit .items r r') :
      Edit .node (.mapping (before ++ (.text "items", r) :: behind))
        (.mapping (before ++ (.text "items", r') :: behind))
  | inGroup {before behind : List (Plain × Plain)} {key r r' : Plain} (he : Edit .items r r') :
      Edit .config (.mapping (before ++ (key, r) :: behind))
        (.mapping (before ++ (key, r') :: behind))

/-! ## Fields -/

theorem text_ne {s t : Text} (hne : s ≠ t) : Plain.text s ≠ .text t :=
  fun h => hne (Atom.text.inj (atom.inj h))

theorem field?_cons (key : Text) (e : Plain × Plain) (entries : List (Plain × Plain)) :
    field? key (e :: entries) = if e.1.isText key then some e.2 else field? key entries := by
  rw [field?, List.find?_cons]
  cases e.1.isText key <;> rfl

theorem field?_append (key : Text) (xs ys : List (Plain × Plain)) :
    field? key (xs ++ ys) = (field? key xs).or (field? key ys) := by
  rw [field?, List.find?_append, field?, field?]
  cases xs.find? fun e => isText key e.1 <;> rfl

/-- A key that is not looked up is not seen. -/
theorem field?_insert (he : e.1 ≠ .text key) :
    field? key (before ++ e :: behind) = field? key (before ++ behind) := by
  rw [field?_append, field?_append, field?_cons, if_neg fun hk => he (isText_iff.1 hk)]

theorem given?_insert (he : e.1 ≠ .text key) :
    given? key (before ++ e :: behind) = given? key (before ++ behind) := by
  rw [given?, given?, field?_insert he]

theorem field?_eq_some_iff (hd : DistinctTexts entries) :
    field? key entries = some r ↔ (.text key, r) ∈ entries := by
  refine ⟨mem_of_field?, fun hm => ?_⟩
  induction entries with
  | nil => cases hm
  | cons e entries ih =>
    obtain ⟨hfirst, hrest⟩ := List.pairwise_cons.1 hd
    rw [field?_cons]
    rcases List.mem_cons.1 hm with rfl | hm
    · rw [if_pos (isText_iff.2 rfl)]
    · rw [if_neg fun hk => hfirst _ hm key (isText_iff.1 hk) rfl, ih hrest hm]

/-- The order of the keys does not matter. -/
theorem field?_perm (hp : entries.Perm entries') (hd : DistinctTexts entries) :
    field? key entries = field? key entries' := by
  have hd' : DistinctTexts entries' :=
    hd.perm hp fun {e f} hef k hf he => hef k he hf
  refine Option.ext fun r => ?_
  rw [field?_eq_some_iff hd, field?_eq_some_iff hd', hp.mem_iff]

/-! ## What a node is read by -/

theorem typeOf_given? {type : Text} (ht : field? "type" entries = some (.text type)) :
    given? "type" entries = some (.text type) := by
  rw [given?, ht]
  rfl

theorem categoryOf_congr {label items items' : Option Plain}
    (hi : items'.map (itemsOf path) = items.map (itemsOf path)) :
    categoryOf path label items' = categoryOf path label items := by
  rw [categoryOf, categoryOf]
  cases items with
  | none =>
    rw [Option.map_eq_none_iff.1 hi]
  | some s =>
    obtain ⟨s', rfl, hs⟩ := Option.map_eq_some_iff.1 hi
    simp only [hs]

/-- A mapping is read by its type, its label, and the one field that its type has beside. -/
theorem nodeOf_congr (ht : given? "type" entries' = given? "type" entries)
    (hl : given? "label" entries' = given? "label" entries)
    (hid : field? "type" entries = some (.text "category") ∨
      given? "id" entries' = given? "id" entries)
    (hi : field? "type" entries = some (.text "doc") ∨
      (field? "items" entries').map (itemsOf path) = (field? "items" entries).map (itemsOf path)) :
    nodeOf path (.mapping entries') = nodeOf path (.mapping entries) := by
  rw [nodeOf_mapping, nodeOf_mapping, ht, hl]
  cases htype : typeOf path (given? "type" entries) with
  | error e => rfl
  | ok type =>
    cases type with
    | doc =>
      have hid : given? "id" entries' = given? "id" entries := hid.resolve_left fun hc => by
        rw [typeOf_given? hc] at htype
        cases htype
      exact congrArg (Except.map Item.doc) (by rw [hid])
    | category =>
      refine categoryOf_congr (hi.resolve_left fun hd => ?_)
      rw [typeOf_given? hd] at htype
      cases htype

/-! ## Edits are not seen -/

/-- The two values are read alike, where they stand for this. -/
def Standing.SameReading : Standing → Plain → Plain → Prop
  | .config, r, r' => r'.tree = r.tree
  | .items, r, r' => ∀ path, r'.itemsOf path = r.itemsOf path
  | .node, r, r' => ∀ path, r'.nodeOf path = r.nodeOf path

/-- An entry that is added under another key than those that are read is not seen. -/
theorem nodeOf_insert {key value : Plain} (ht : key ≠ .text "type") (hl : key ≠ .text "label")
    (hid : key ≠ .text "id" ∨ field? "type" (before ++ behind) = some (.text "category"))
    (hi : key ≠ .text "items" ∨ field? "type" (before ++ behind) = some (.text "doc")) :
    nodeOf path (.mapping (before ++ (key, value) :: behind)) =
      nodeOf path (.mapping (before ++ behind)) := by
  refine nodeOf_congr (given?_insert ht) (given?_insert hl) ?_ ?_
  · exact hid.symm.imp_right fun hk => given?_insert hk
  · exact hi.symm.imp_right fun hk => by rw [field?_insert hk]

theorem nodeOf_reorder (hp : entries.Perm entries') (hd : DistinctTexts entries) :
    nodeOf path (.mapping entries') = nodeOf path (.mapping entries) := by
  have hgiven : ∀ key, given? key entries' = given? key entries := fun key => by
    rw [given?, given?, field?_perm hp hd]
  exact nodeOf_congr (hgiven _) (hgiven _) (.inr (hgiven _)) (.inr (by rw [field?_perm hp hd]))

/-- A bare id is read as the mapping that it is short for. -/
theorem nodeOf_spellOut (id : Text) :
    nodeOf path (.mapping [(.text "type", .text "doc"), (.text "id", .text id)]) =
      nodeOf path (.text id) := by
  rw [nodeOf_mapping, nodeOf]
  rfl

theorem nodeOf_nullLabel (hl : field? "label" (before ++ behind) = none) :
    nodeOf path (.mapping (before ++ (.text "label", .null) :: behind)) =
      nodeOf path (.mapping (before ++ behind)) := by
  obtain ⟨hbefore, hbehind⟩ := Option.or_eq_none_iff.1 (field?_append "label" .. ▸ hl)
  refine nodeOf_congr (given?_insert (text_ne (by decide))) ?_
    (.inr (given?_insert (text_ne (by decide))))
    (.inr (by rw [field?_insert (text_ne (by decide))]))
  rw [given?, given?, hl, field?_append, hbefore]
  rfl

/-- Items that are read alike can stand for each other. -/
theorem nodeOf_inItems (he : ∀ path, r'.itemsOf path = r.itemsOf path) :
    nodeOf path (.mapping (before ++ (.text "items", r') :: behind)) =
      nodeOf path (.mapping (before ++ (.text "items", r) :: behind)) := by
  have hgiven : ∀ key : Text, key ≠ "items" →
      given? key (before ++ (.text "items", r') :: behind) =
        given? key (before ++ (.text "items", r) :: behind) := by
    intro key hk
    rw [given?_insert (text_ne hk.symm), given?_insert (text_ne hk.symm)]
  refine nodeOf_congr (hgiven _ (by decide)) (hgiven _ (by decide)) (.inr (hgiven _ (by decide)))
    (.inr ?_)
  have hitems : ∀ s, field? "items" ((.text "items", s) :: behind) = some s := fun s => by
    rw [field?_cons, if_pos (isText_iff.2 rfl)]
  rw [field?_append, field?_append, hitems, hitems]
  cases field? "items" before with
  | none => exact congrArg some (he path)
  | some s => rfl

theorem nodesOf_inList {before behind : List Plain} (he : ∀ path, r'.nodeOf path = r.nodeOf path)
    (i : Nat) :
    nodesOf path i (before ++ r' :: behind) = nodesOf path i (before ++ r :: behind) := by
  induction before generalizing i with
  | nil => rw [List.nil_append, List.nil_append, nodesOf, nodesOf, he]
  | cons s before ih => rw [List.cons_append, List.cons_append, nodesOf, nodesOf, ih]

theorem groupsOf_inGroup {key : Plain} (he : ∀ path, r'.itemsOf path = r.itemsOf path) :
    groupsOf (before ++ (key, r') :: behind) = groupsOf (before ++ (key, r) :: behind) := by
  induction before with
  | nil =>
    cases key with
    | atom a => cases a <;> simp only [List.nil_append, groupsOf, he]
    | _ => rfl
  | cons e before ih =>
    obtain ⟨k, s⟩ := e
    cases k with
    | atom a => cases a <;> simp only [List.cons_append, groupsOf, ih]
    | _ => rfl

/-- **One edit is not seen**: neither in a tree nor in an error. -/
theorem Edit.sameReading {s : Standing} (he : Edit s r r') : s.SameReading r r' := by
  induction he with
  | other value hk =>
    exact fun path => nodeOf_insert (hk _ (by decide)) (hk _ (by decide)) (.inl (hk _ (by decide)))
      (.inl (hk _ (by decide)))
  | idOfCategory value hc =>
    exact fun path => nodeOf_insert (text_ne (by decide)) (text_ne (by decide)) (.inr hc)
      (.inl (text_ne (by decide)))
  | itemsOfDoc value hd =>
    exact fun path => nodeOf_insert (text_ne (by decide)) (text_ne (by decide))
      (.inl (text_ne (by decide))) (.inr hd)
  | reorder hp hd => exact fun path => nodeOf_reorder hp hd
  | spellOut id => exact fun path => nodeOf_spellOut id
  | nullLabel hl => exact fun path => nodeOf_nullLabel hl
  | retype nodes => exact fun path => by rw [itemsOf, itemsOf]
  | inList _ ih => exact fun path => by rw [itemsOf, itemsOf, nodesOf_inList ih]
  | inTuple _ ih => exact fun path => by rw [itemsOf, itemsOf, nodesOf_inList ih]
  | inItems _ ih => exact fun path => nodeOf_inItems ih
  | inGroup _ ih => exact congrArg (Except.map Tree.ofGroups) (groupsOf_inGroup ih)

/-- Any number of edits, made or taken back, is not seen. -/
theorem tree_eq_of_edits (he : Relation.EqvGen (Edit .config) r r') : r'.tree = r.tree := by
  induction he with
  | rel r r' he => exact he.sameReading
  | refl r => rfl
  | symm r r' _ ih => exact ih.symm
  | trans r s r' _ _ ih ih' => exact ih'.trans ih

end Plain

namespace Heap

/-- The second configuration comes from the first by edits, any number of them, each made or taken
back.  To change what stands under a key is to take it away and to add it again; and since a key
that is added and taken away again might as well hold null in between, nothing on the way has to
hold a cycle. -/
def Edited (h : Heap) (config : Value) (t : Heap) (config' : Value) : Prop :=
  ∃ r r', h.Represents config r ∧ t.Represents config' r' ∧
    Relation.EqvGen (Plain.Edit .config) r r'

/-- **Edits are not seen.**  Every value without a cycle is written down in one way, and however a
configuration that is written down is edited, the same tree is read from it, or it is rejected with
the same error. -/
theorem ofRaw_ignores_edits :
    (∀ (h : Heap) (v : Value), h.CycleFree v ↔ ∃! r, h.Represents v r) ∧
      ∀ (h t : Heap) (config config' : Value), h.Edited config t config' →
        Tree.ofRaw t config' = Tree.ofRaw h config := by
  refine ⟨fun h v => ⟨fun hv => ?_, fun ⟨r, hr, _⟩ => hr.cycleFree⟩, ?_⟩
  · obtain ⟨r, hr⟩ := exists_represents_iff.2 hv
    exact ⟨r, hr, fun s hs => hs.unique hr⟩
  · rintro h t config config' ⟨r, r', hr, hr', he⟩
    rw [ofRaw_of_represents hr, ofRaw_of_represents hr', Plain.tree_eq_of_edits he]

/-- A category that holds a blank id. -/
def blankHeap : Heap := ⟨#[
  .mapping [(.text "docs", .ref 1)],
  .tuple [.ref 2],
  .mapping [(.text "type", .text "category"), (.text "label", .text "More"),
    (.text "items", .ref 3)],
  .list [.text " "]]⟩

/-- The same, with the id spelled out, a null label, and other keys. -/
def blankHeap' : Heap := ⟨#[
  .mapping [(.text "docs", .ref 1)],
  .list [.ref 2],
  .mapping [(.text "id", .int 7), (.text "label", .text "More"), (.text "type", .text "category"),
    (.text "items", .ref 3)],
  .tuple [.ref 4],
  .mapping [(.text "type", .text "doc"), (.text "id", .text " "), (.text "label", .null),
    (.text "note", .bool true)]]⟩

/-- One group with this as its list of nodes. -/
def docsGroup (nodes : Plain) : Plain := .mapping [(.text "docs", nodes)]

/-- A category, with an id beside. -/
def numbered (items : Plain) : Plain := .mapping [(.text "id", .atom (.int 7)),
  (.text "label", .text "More"), (.text "type", .text "category"), (.text "items", items)]

theorem blankHeap_edited : blankHeap.Edited (.ref 0) blankHeap' (.ref 0) := by
  -- edits of the category, and of what is in it
  have inCategory : ∀ {r r'}, Plain.Edit .node r r' →
      Relation.EqvGen (Plain.Edit .config) (docsGroup (.list [r])) (docsGroup (.list [r'])) :=
    fun he => .rel _ _ (@Plain.Edit.inGroup [] [] _ _ _ (@Plain.Edit.inList [] [] _ _ he))
  have inItems : ∀ {r r'}, Plain.Edit .items r r' → Plain.Edit .node (numbered r) (numbered r') :=
    fun he => @Plain.Edit.inItems [_, _, _] [] _ _ he
  have inNode : ∀ {r r'}, Plain.Edit .node r r' →
      Plain.Edit .node (numbered (.tuple [r])) (numbered (.tuple [r'])) :=
    fun he => inItems (@Plain.Edit.inTuple [] [] _ _ he)
  refine ⟨docsGroup (.tuple [.mapping [(.text "type", .text "category"),
      (.text "label", .text "More"), (.text "items", .list [.text " "])]]),
    docsGroup (.list [numbered (.tuple [.mapping [(.text "type", .text "doc"),
      (.text "id", .text " "), (.text "label", .null), (.text "note", .atom (.bool true))]])]),
    ?_, ?_, ?_⟩
  · refine .mapping rfl (represents_texts _ ["docs"]) (.cons (.collection rfl (.cons ?_ .nil)) .nil)
    refine .mapping rfl (represents_texts _ ["type", "label", "items"]) (.cons (.atom rfl) ?_)
    exact .cons (.atom rfl) (.cons (.collection rfl (represents_texts _ [" "])) .nil)
  · refine .mapping rfl (represents_texts _ ["docs"]) (.cons (.collection rfl (.cons ?_ .nil)) .nil)
    refine .mapping rfl (represents_texts _ ["id", "label", "type", "items"])
      (.cons (.atom rfl) (.cons (.atom rfl) (.cons (.atom rfl) (.cons (.collection rfl ?_) .nil))))
    refine .cons (.mapping rfl (represents_texts _ ["type", "id", "label", "note"]) ?_) .nil
    exact .cons (.atom rfl) (.cons (.atom rfl) (.cons (.atom rfl) (.cons (.atom rfl) .nil)))
  · have hkeys : ("label" : Text) ≠ "type" ∧ ("items" : Text) ≠ "type" ∧
        ("items" : Text) ≠ "label" := by decide
    have hnote : ∀ k ∈ (["type", "id", "label", "items"] : List Text), ("note" : Text) ≠ k := by
      decide
    refine .trans _ _ _ (.symm _ _ (.rel _ _ (@Plain.Edit.inGroup [] [] _ _ _ (.retype _)))) ?_
    refine .trans _ _ _
      (inCategory (.reorder (.swap _ _ _) (by simp [Plain.DistinctTexts, hkeys]))) ?_
    refine .trans _ _ _ (inCategory (@Plain.Edit.idOfCategory [] _ (.atom (.int 7)) rfl)) ?_
    refine .trans _ _ _ (inCategory (inItems (.retype _))) ?_
    refine .trans _ _ _ (inCategory (inNode (.spellOut _))) ?_
    refine .trans _ _ _ (inCategory (inNode (@Plain.Edit.nullLabel [_, _] [] rfl))) ?_
    exact inCategory (inNode (@Plain.Edit.other [_, _, _] [] _ _ fun k hk =>
      Plain.text_ne (hnote k hk)))

/-- The two configurations are rejected for the same reason at the same place. -/
theorem blankHeap_reads_alike : blankHeap.Edited (.ref 0) blankHeap' (.ref 0) ∧
    Tree.ofRaw blankHeap' (.ref 0) = Tree.ofRaw blankHeap (.ref 0) ∧
    Tree.ofRaw blankHeap (.ref 0) =
      .error (.schema ⟨[.name "docs", .index 0, .index 0], .badId "' '"⟩) := by
  have hr : Tree.ofRaw blankHeap (.ref 0) =
      .error (blankHeap.showing [.name "docs", .index 0, .index 0] .badId (.text " ")) :=
    Tree.ofRaw_of_run rfl
  have hshown : blankHeap.print? (.text " ") = some ("' '" : Text) := by
    rw [print?, printFrom]
    rfl
  refine ⟨blankHeap_edited, ofRaw_ignores_edits.2 _ _ _ _ blankHeap_edited, ?_⟩
  rw [hr, showing, hshown]

end Heap

end Sidebar.Raw
