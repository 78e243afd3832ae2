import Sidebar.Proofs.Positions
import Sidebar.Proofs.Written

/-!
# Sidebar.Proofs.Entries: what the entries of a node are read as

The entries of a mapping give its type, and make a document or the head of a category.  For each of
the three readings there is a list of all its outcomes, every one with what is written where it
arises (`TypeReading`, `DocReading`, `HeadReading`); a reading has exactly one of them.  Later
proofs take an outcome from these lists and do not open the readings.
-/

namespace Sidebar

open Raw

namespace Raw.Heap

variable {h : Heap} {path : NodePath} {entries : List (Value × Value)} {v w : Value}

/-! ## What can be written -/

/-- The text can be the id of a document. -/
def ValidId (id : Text) : Prop := id.isBlank = false ∧ id.hasSurrogate = false

/-- The text would be an id if it did not hold a lone surrogate. -/
def RefusedId (id : Text) : Prop := id.isBlank = false ∧ id.hasSurrogate = true

/-- The entries of a document give no label, or null, or a text. -/
def LabelFits (h : Heap) (entries : List (Value × Value)) : Prop :=
  ∀ found, (field? "label" entries).map h.view = some found →
    found = .null ∨ ∃ label, found = .text label

/-- The entries make a document: they give an id, and no label that does not fit. -/
def WritesDoc (h : Heap) (entries : List (Value × Value)) : Prop :=
  (∃ id, (field? "id" entries).map h.view = some (.text id) ∧ ValidId id) ∧ h.LabelFits entries

/-- The entries make a category: they give a label, and items of whatever kind. -/
def WritesCategory (h : Heap) (entries : List (Value × Value)) : Prop :=
  (∃ label, (field? "label" entries).map h.view = some (.text label)) ∧
    ∃ items, field? "items" entries = some items

/-- The type that the entries give is none that there is. -/
def GivesUnknownType (h : Heap) (entries : List (Value × Value)) (w : Value) : Prop :=
  field? "type" entries = some w ∧ h.view w ≠ .null ∧ h.view w ≠ .text "doc" ∧
    h.view w ≠ .text "category"

/-- What the entries give for an id is no text, or a blank one. -/
def GivesBadId (h : Heap) (entries : List (Value × Value)) (w : Value) : Prop :=
  field? "id" entries = some w ∧ h.view w ≠ .null ∧
    ∀ id, h.view w = .text id → id.isBlank = true

theorem given?_eq_some_iff {key : Text} :
    h.given? key entries = some v ↔ field? key entries = some v ∧ h.view v ≠ .null :=
  ⟨given?_eq_some, fun hv => Option.filter_eq_some_iff.2 ⟨hv.1, by simpa using hv.2⟩⟩

theorem given?_of_view {key : Text} {found : View}
    (hf : (field? key entries).map h.view = some found) (hn : found ≠ .null) :
    ∃ v, h.given? key entries = some v ∧ h.view v = found := by
  obtain ⟨v, hv, rfl⟩ := Option.map_eq_some_iff.1 hf
  exact ⟨v, given?_eq_some_iff.2 ⟨hv, hn⟩, rfl⟩

theorem view_field_of_given? {key : Text} (hg : h.given? key entries = some v) :
    (field? key entries).map h.view = some (h.view v) :=
  congrArg (Option.map h.view) (given?_eq_some hg).1

theorem GivesUnknownType.not_hasType (hw : h.GivesUnknownType entries w) (type : NodeType) :
    ¬ h.HasType type.name entries := by
  intro ht
  obtain ⟨hw, -, hd, hc⟩ := hw
  rw [HasType, hw, Option.map_some] at ht
  cases type with
  | doc => exact hd (Option.some.inj ht)
  | category => exact hc (Option.some.inj ht)

theorem GivesBadId.blank {id : Text} (hw : h.GivesBadId entries w)
    (hid : (field? "id" entries).map h.view = some (.text id)) : id.isBlank = true := by
  rw [hw.1, Option.map_some] at hid
  exact hw.2.2 id (Option.some.inj hid)

theorem not_hasType_of_given? {type : Text} (hg : h.given? "type" entries = none) :
    ¬ h.HasType type entries := fun ht => by
  obtain ⟨v, hv, -⟩ := given?_of_view ht (by simp)
  rw [hg] at hv
  cases hv

/-! ## The type -/

/-- What the type of a node is read as. -/
inductive TypeReading (h : Heap) (path : NodePath) (entries : List (Value × Value)) :
    Except ConfigError NodeType → Prop
  | missing (hg : h.given? "type" entries = none) :
      TypeReading h path entries (.error (.schema ⟨path, .noType⟩))
  | unknown {w : Value} (hw : h.GivesUnknownType entries w) :
      TypeReading h path entries (.error (h.showing path .unknownType w))
  | read {type : NodeType} (ht : h.HasType type.name entries) :
      TypeReading h path entries (.ok type)

theorem typeReading (h : Heap) (path : NodePath) (entries : List (Value × Value)) :
    h.TypeReading path entries (NodeType.ofEntries h path entries) := by
  unfold NodeType.ofEntries
  split
  · next hg => exact .missing hg
  · next v hg =>
    have hv := view_field_of_given? hg
    split
    · next hd =>
      have ht : h.HasType NodeType.doc.name entries := hv.trans (congrArg some hd)
      exact .read ht
    · next hd =>
      split
      · next hc =>
        have ht : h.HasType NodeType.category.name entries := hv.trans (congrArg some hc)
        exact .read ht
      · next hc =>
        obtain ⟨hf, hn⟩ := given?_eq_some hg
        exact .unknown ⟨hf, hn, hd, hc⟩

theorem typeOfEntries_eq_ok_iff {type : NodeType} :
    NodeType.ofEntries h path entries = .ok type ↔ h.HasType type.name entries := by
  have hr := h.typeReading path entries
  generalize NodeType.ofEntries h path entries = r at hr ⊢
  cases hr with
  | missing hg =>
    exact iff_of_false (by simp) (not_hasType_of_given? hg)
  | unknown hw => exact iff_of_false (by simp) (hw.not_hasType type)
  | @read type' ht' =>
    refine ⟨fun he => Except.ok.inj he ▸ ht', fun ht => ?_⟩
    have hn := ht.unique ht'
    cases type <;> cases type' <;> first | rfl | exact absurd hn (by decide)

/-! ## Documents -/

theorem labelOf_cases (h : Heap) (path : NodePath) (entries : List (Value × Value)) (id : Text) :
    (∃ label, Doc.labelOf h path id entries = .ok label) ∧ h.LabelFits entries ∨
      (∃ type, Doc.labelOf h path id entries = .error (.schema ⟨path, .docLabel type⟩)) ∧
        ¬ h.LabelFits entries := by
  unfold Doc.labelOf
  split
  · next hg =>
    refine .inl ⟨⟨_, rfl⟩, fun found hf => ?_⟩
    by_contra! hn
    obtain ⟨v, hv, -⟩ := given?_of_view hf hn.1
    rw [hv] at hg
    cases hg
  · next label hg =>
    obtain ⟨v, hv, hl⟩ := Option.map_eq_some_iff.1 hg
    refine .inl ⟨⟨_, rfl⟩, fun found hf => .inr ⟨label, ?_⟩⟩
    rw [view_field_of_given? hv, hl] at hf
    exact (Option.some.inj hf).symm
  · next found ht hg =>
    obtain ⟨v, hv, rfl⟩ := Option.map_eq_some_iff.1 hg
    refine .inr ⟨⟨_, rfl⟩, fun hl => ?_⟩
    rcases hl _ (view_field_of_given? hv) with hn | ⟨label, hl⟩
    · exact (given?_eq_some hv).2 hn
    · exact ht label hl

/-- What the entries of a document are read as. -/
inductive DocReading (h : Heap) (path : NodePath) (entries : List (Value × Value)) :
    Except ConfigError Doc → Prop
  | noId (hg : h.given? "id" entries = none) :
      DocReading h path entries (.error (.schema ⟨path, .noId⟩))
  | badId {w : Value} (hw : h.GivesBadId entries w) :
      DocReading h path entries (.error (h.showing path .badId w))
  | badLabel {id type : Text} (hl : ¬ h.LabelFits entries)
      (hid : (field? "id" entries).map h.view = some (.text id)) (hb : id.isBlank = false) :
      DocReading h path entries (.error (.schema ⟨path, .docLabel type⟩))
  | refused {id : Text} (hl : h.LabelFits entries)
      (hid : (field? "id" entries).map h.view = some (.text id)) (hr : RefusedId id) :
      DocReading h path entries (.error .surrogateId)
  | read {id label : Text} (hl : h.LabelFits entries)
      (hid : (field? "id" entries).map h.view = some (.text id)) (hv : ValidId id) :
      DocReading h path entries (.ok ⟨id, label⟩)

theorem docReading (h : Heap) (path : NodePath) (entries : List (Value × Value)) :
    h.DocReading path entries (Doc.ofEntries h path entries) := by
  unfold Doc.ofEntries
  split
  · next hg => exact .noId hg
  · next v hg =>
    obtain ⟨hf, hn⟩ := given?_eq_some hg
    have hid := view_field_of_given? hg
    split
    · next id hv =>
      rw [hv] at hid
      split
      · next hb =>
        refine .badId ⟨hf, hn, fun id' hid' => ?_⟩
        obtain rfl := View.text.inj (hv.symm.trans hid')
        exact hb
      · next hb =>
        have hb : id.isBlank = false := by simpa using hb
        rcases labelOf_cases h path entries id with ⟨⟨label, he⟩, hl⟩ | ⟨⟨type, he⟩, hl⟩
        · rw [he]
          dsimp only
          unfold Doc.record
          split
          · next hs => exact .refused hl hid ⟨hb, hs⟩
          · next hs => exact .read hl hid ⟨hb, by simpa using hs⟩
        · rw [he]
          exact .badLabel hl hid hb
    · next ht => exact .badId ⟨hf, hn, fun id hv => absurd hv (ht id)⟩

theorem exists_docOfEntries_iff :
    (∃ d, Doc.ofEntries h path entries = .ok d) ↔ h.WritesDoc entries := by
  have hr := h.docReading path entries
  generalize Doc.ofEntries h path entries = r at hr ⊢
  cases hr with
  | noId hg =>
    refine iff_of_false (by simp) fun ⟨⟨id, hid, _⟩, _⟩ => ?_
    obtain ⟨v, hv, -⟩ := given?_of_view hid (by simp)
    rw [hg] at hv
    cases hv
  | badId hw =>
    refine iff_of_false (by simp) fun ⟨⟨id, hid, hv⟩, _⟩ => ?_
    exact Bool.false_ne_true (hv.1.symm.trans (hw.blank hid))
  | badLabel hl => exact iff_of_false (by simp) fun hw => hl hw.2
  | refused hl hid hr =>
    refine iff_of_false (by simp) fun ⟨⟨id, hid', hv⟩, _⟩ => ?_
    obtain rfl := View.text.inj (Option.some.inj (hid.symm.trans hid'))
    exact Bool.false_ne_true (hv.2.symm.trans hr.2)
  | read hl hid hv => exact iff_of_true ⟨_, rfl⟩ ⟨⟨_, hid, hv⟩, hl⟩

/-! A bare id stands for entries that give nothing else. -/

theorem view_field_bare {id : Text} :
    (field? "id" [(.text "id", .text id)]).map h.view = some (.text id) := rfl

theorem labelFits_bare {id : Text} : h.LabelFits [(.text "id", .text id)] :=
  fun found hf => by cases hf

theorem writesDoc_bare_iff {id : Text} :
    h.WritesDoc [(.text "id", .text id)] ↔ ValidId id := by
  rw [WritesDoc, view_field_bare]
  simp [labelFits_bare]

/-! ## Categories -/

/-- What the entries of a category are read as, up to its items. -/
inductive HeadReading (h : Heap) (path : NodePath) (entries : List (Value × Value)) :
    Except ConfigError (Text × Value) → Prop
  | noLabel (hn : ¬ h.WritesCategory entries) :
      HeadReading h path entries (.error (.schema ⟨path, .noLabel⟩))
  | badLabel {type : Text} (hn : ¬ h.WritesCategory entries) :
      HeadReading h path entries (.error (.schema ⟨path, .categoryLabel type⟩))
  | noItems {label : Text} (hn : ¬ h.WritesCategory entries) :
      HeadReading h path entries (.error (.schema ⟨path, .noItems label⟩))
  | read {label : Text} {items : Value}
      (hl : (field? "label" entries).map h.view = some (.text label))
      (hi : field? "items" entries = some items) : HeadReading h path entries (.ok (label, items))

theorem headReading (h : Heap) (path : NodePath) (entries : List (Value × Value)) :
    h.HeadReading path entries (categoryHead h path entries) := by
  unfold categoryHead
  split
  · next hg =>
    refine .noLabel ?_
    rintro ⟨⟨label, hl⟩, -⟩
    obtain ⟨v, hv, -⟩ := given?_of_view hl (by simp)
    rw [hv] at hg
    cases hg
  · next label hg =>
    obtain ⟨v, hv, hl⟩ := Option.map_eq_some_iff.1 hg
    split
    · next hi =>
      refine .noItems ?_
      rintro ⟨-, items, hitems⟩
      rw [hi] at hitems
      cases hitems
    · next items hi => exact .read ((view_field_of_given? hv).trans (congrArg some hl)) hi
  · next found ht hg =>
    obtain ⟨v, hv, rfl⟩ := Option.map_eq_some_iff.1 hg
    refine .badLabel ?_
    rintro ⟨⟨label, hl⟩, -⟩
    refine ht label ?_
    rw [view_field_of_given? hv] at hl
    exact Option.some.inj hl

theorem exists_categoryHead_iff :
    (∃ head, categoryHead h path entries = .ok head) ↔ h.WritesCategory entries := by
  have hr := h.headReading path entries
  generalize categoryHead h path entries = r at hr ⊢
  cases hr with
  | noLabel hn | badLabel hn | noItems hn => exact iff_of_false (by simp) hn
  | read hl hi => exact iff_of_true ⟨_, rfl⟩ ⟨⟨_, hl⟩, _, hi⟩

end Raw.Heap

end Sidebar
