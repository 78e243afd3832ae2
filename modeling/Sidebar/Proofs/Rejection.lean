import Sidebar.Proofs.Calls
import Sidebar.Proofs.Grammar
import Sidebar.Proofs.Shown

/-!
# Sidebar.Proofs.Rejection: how a configuration can be rejected

What is wrong with a configuration is a schema error, with a path and a reason, but for two cases.
An id with something visible in it can still be refused because of a lone surrogate, and the reason
of an error that shows a value cannot be given where the value holds an integer that is too long.
`Heap.RefusesId` and `Heap.Offends` tell these cases by what is written in a place.

* `error?_eq_surrogateId_iff`, `error?_eq_unshowable_iff`: the two cases at a single place.
* `ofRaw_fails_beside_schema`: they arise exactly where the first ill-formed place is such a place.
* `surrogate_and_longInteger_escape`: both do arise.
-/

namespace Sidebar.Raw.Heap

open Relation

variable {h : Heap} {config : Value} {path : NodePath} {ancestors : List Address} {v w : Value}
  {entries : List (Value × Value)} {p : Position}

/-- What stands at a place is a document, by its bare id or as a mapping, in which all is right but
a lone surrogate in the id. -/
def RefusesId (h : Heap) (p : Position) : Prop :=
  match p.role with
  | .node _ =>
    (∃ id, h.view p.value = .text id ∧ RefusedId id) ∨
      ∃ a entries id, h.view p.value = .mapping a entries ∧ h.HasType "doc" entries ∧
        (field? "id" entries).map h.view = some (.text id) ∧ RefusedId id ∧ h.LabelFits entries
  | _ => False

/-- The error of a place shows this value: a key that is no group name, a type that there is not,
or what should be an id. -/
inductive Offends (h : Heap) : Position → Value → Prop
  | groupName {path : NodePath} {key : Value}
      (hk : ∀ name, h.view key = .text name → name = []) : Offends h ⟨path, .groupName, key⟩ key
  | bareId {path : NodePath} {ancestors : List Address} {v : Value} {id : Text}
      (hv : h.view v = .text id) (hb : id.isBlank = true) : Offends h ⟨path, .node ancestors, v⟩ v
  | unknownType {path : NodePath} {ancestors : List Address} {v w : Value} {a : Address}
      {entries : List (Value × Value)} (hv : h.view v = .mapping a entries)
      (hw : h.GivesUnknownType entries w) : Offends h ⟨path, .node ancestors, v⟩ w
  | badId {path : NodePath} {ancestors : List Address} {v w : Value} {a : Address}
      {entries : List (Value × Value)} (hv : h.view v = .mapping a entries)
      (ht : h.HasType "doc" entries) (hw : h.GivesBadId entries w) :
      Offends h ⟨path, .node ancestors, v⟩ w

/-! ## Errors that show a value -/

theorem showing_ne_surrogateId (fault : Text → SchemaFault) :
    h.showing path fault v ≠ .surrogateId := by
  unfold showing
  split <;> simp

theorem showing_eq_unshowable_iff (fault : Text → SchemaFault) :
    h.showing path fault v = .unshowable ↔ h.HoldsLong v := by
  rw [← print?_eq_none_iff]
  unfold showing
  split <;> simp_all

theorem not_holdsLong_text {id : Text} (hv : h.view v = .text id) : ¬ h.HoldsLong v := by
  rw [← print?_eq_none_iff, print?, printFrom_eq_none_iff]
  simp [hv, View.IsLong, View.address?]

theorem docOfEntries_eq_surrogateId_iff :
    Doc.ofEntries h path entries = .error .surrogateId ↔
      ∃ id, (field? "id" entries).map h.view = some (.text id) ∧ RefusedId id ∧
        h.LabelFits entries := by
  have hr := h.docReading path entries
  generalize Doc.ofEntries h path entries = r at hr ⊢
  cases hr with
  | noId hg =>
    refine iff_of_false (by simp) fun ⟨id, hid, _⟩ => ?_
    obtain ⟨v, hv, -⟩ := given?_of_view hid (by simp)
    rw [hg] at hv
    cases hv
  | badId hw =>
    refine iff_of_false (by simpa using showing_ne_surrogateId _) fun ⟨id, hid, hr, _⟩ => ?_
    exact Bool.false_ne_true (hr.1.symm.trans (hw.blank hid))
  | badLabel hl => exact iff_of_false (by simp) fun ⟨_, _, _, hl'⟩ => hl hl'
  | refused hl hid hr => exact iff_of_true rfl ⟨_, hid, hr, hl⟩
  | read hl hid hv =>
    refine iff_of_false (by simp) fun ⟨id, hid', hr, _⟩ => ?_
    obtain rfl := View.text.inj (Option.some.inj (hid.symm.trans hid'))
    exact Bool.false_ne_true (hv.2.symm.trans hr.2)

theorem docOfEntries_eq_unshowable_iff :
    Doc.ofEntries h path entries = .error .unshowable ↔
      ∃ w, h.GivesBadId entries w ∧ h.HoldsLong w := by
  have hr := h.docReading path entries
  generalize Doc.ofEntries h path entries = r at hr ⊢
  have blank_of_text : ∀ {id}, (field? "id" entries).map h.view = some (.text id) →
      (∃ w, h.GivesBadId entries w ∧ h.HoldsLong w) → False := by
    rintro id hid ⟨w, hw, hlong⟩
    rw [hw.1, Option.map_some] at hid
    exact not_holdsLong_text (Option.some.inj hid) hlong
  cases hr with
  | noId hg =>
    refine iff_of_false (by simp) fun ⟨w, hw, _⟩ => ?_
    rw [given?_eq_some_iff.2 ⟨hw.1, hw.2.1⟩] at hg
    cases hg
  | @badId w hw =>
    rw [Except.error.injEq, showing_eq_unshowable_iff]
    refine ⟨fun hlong => ⟨w, hw, hlong⟩, fun ⟨w', hw', hlong⟩ => ?_⟩
    obtain rfl := Option.some.inj (hw.1.symm.trans hw'.1)
    exact hlong
  | badLabel _ hid => exact iff_of_false (by simp) (blank_of_text hid)
  | refused _ hid => exact iff_of_false (by simp) (blank_of_text hid)
  | read _ hid => exact iff_of_false (by simp) (blank_of_text hid)

/-! ## Errors of a single place -/

theorem categoryHead_eq_error {e : ConfigError} (hc : categoryHead h path entries = .error e) :
    ∃ fault, e = .schema ⟨path, fault⟩ := by
  have hr := h.headReading path entries
  rw [hc] at hr
  cases hr <;> exact ⟨_, rfl⟩

/-- A place other than a node never refuses an id, and shows a value only as a group name. -/
theorem error?_of_config_or_items (hp : p.role = .config ∨ ∃ ancestors, p.role = .items ancestors)
    {e : ConfigError} (he : h.error? p = some e) : ∃ fault, e = .schema ⟨p.path, fault⟩ := by
  obtain ⟨path, role, v⟩ := p
  rcases hp with rfl | ⟨ancestors, rfl⟩
  · rw [error?] at he
    dsimp only at he
    split at he <;> cases he
    exact ⟨_, rfl⟩
  · rw [error?] at he
    dsimp only at he
    split at he
    · cases he
      exact ⟨_, rfl⟩
    · split at he <;> cases he
      exact ⟨_, rfl⟩

theorem error?_groupName_iff {key : Value} {e : ConfigError} :
    h.error? ⟨path, .groupName, key⟩ = some e ↔
      (∀ name, h.view key = .text name → name = []) ∧ h.showing path .groupName key = e := by
  rw [error?]
  dsimp only
  cases hk : h.view key <;> simp

theorem error?_mapping_eq_surrogateId_iff {a : Address} (hv : h.view v = .mapping a entries)
    (hp : h.AreAncestors ancestors) :
    h.error? ⟨path, .node ancestors, v⟩ = some .surrogateId ↔
      h.HasType "doc" entries ∧ ∃ id, (field? "id" entries).map h.view = some (.text id) ∧
        RefusedId id ∧ h.LabelFits entries := by
  have hr : h.MappingReading path ancestors a entries _ := mappingReading hv hp
  generalize h.error? ⟨path, .node ancestors, v⟩ = r at hr ⊢
  cases hr with
  | inItself ha hc => simp [hc.not_doc]
  | noType hg => simp [not_hasType_of_given? hg]
  | unknownType hw =>
    have hd : ¬ h.HasType "doc" entries := hw.not_hasType .doc
    simp [hd, showing_ne_surrogateId]
  | doc ht =>
    rw [errorOf_eq_some_iff, docOfEntries_eq_surrogateId_iff]
    exact (and_iff_right ht).symm
  | category ha ht =>
    refine iff_of_false (fun he => ?_) fun hw => ht.not_doc hw.1
    obtain ⟨_, hf⟩ := categoryHead_eq_error (errorOf_eq_some_iff.1 he)
    cases hf

theorem error?_eq_surrogateId_iff (hp : h.AreAncestors p.role.ancestors) :
    h.error? p = some .surrogateId ↔ h.RefusesId p := by
  obtain ⟨path, role, v⟩ := p
  cases role with
  | config =>
    refine iff_of_false (fun he => ?_) id
    obtain ⟨_, hf⟩ := error?_of_config_or_items (.inl rfl) he
    cases hf
  | items ancestors =>
    refine iff_of_false (fun he => ?_) id
    obtain ⟨_, hf⟩ := error?_of_config_or_items (.inr ⟨_, rfl⟩) he
    cases hf
  | groupName =>
    exact iff_of_false (fun he => showing_ne_surrogateId _ (error?_groupName_iff.1 he).2) id
  | node ancestors =>
    rw [RefusesId]
    dsimp only
    cases hv : h.view v with
    | text id =>
      rw [error?_text hv, errorOf_eq_some_iff, Doc.ofId, docOfEntries_eq_surrogateId_iff]
      rw [view_field_bare]
      simp [labelFits_bare]
    | mapping a entries =>
      refine (error?_mapping_eq_surrogateId_iff hv hp).trans ?_
      simp
    | _ => simp [error?, hv]

/-! The two kinds of node whose error can show a value. -/

/-- What is wrong with a bare id can be shown. -/
theorem not_holdsLong_of_offends {id : Text} (hv : h.view v = .text id)
    (ho : h.Offends ⟨path, .node ancestors, v⟩ w) : ¬ h.HoldsLong w := by
  cases ho with
  | bareId hv' => exact not_holdsLong_text hv'
  | unknownType hv' => simp [hv] at hv'
  | badId hv' => simp [hv] at hv'

theorem error?_text_ne_unshowable {id : Text} (hv : h.view v = .text id) :
    h.error? ⟨path, .node ancestors, v⟩ ≠ some .unshowable := by
  rw [error?_text hv, Ne, errorOf_eq_some_iff, Doc.ofId, docOfEntries_eq_unshowable_iff]
  rintro ⟨w, hw, hlong⟩
  obtain rfl : .text id = w := Option.some.inj hw.1
  exact not_holdsLong_text rfl hlong

theorem offends_mapping_iff {a : Address} (hv : h.view v = .mapping a entries) :
    h.Offends ⟨path, .node ancestors, v⟩ w ↔
      h.GivesUnknownType entries w ∨ h.HasType "doc" entries ∧ h.GivesBadId entries w := by
  constructor
  · intro ho
    cases ho with
    | bareId hv' => simp [hv] at hv'
    | unknownType hv' hw =>
      obtain ⟨rfl, rfl⟩ := View.mapping.inj (hv.symm.trans hv')
      exact .inl hw
    | badId hv' ht hw =>
      obtain ⟨rfl, rfl⟩ := View.mapping.inj (hv.symm.trans hv')
      exact .inr ⟨ht, hw⟩
  · rintro (hw | ⟨ht, hw⟩)
    · exact .unknownType hv hw
    · exact .badId hv ht hw

theorem error?_mapping_eq_unshowable_iff {a : Address} (hv : h.view v = .mapping a entries)
    (hp : h.AreAncestors ancestors) :
    h.error? ⟨path, .node ancestors, v⟩ = some .unshowable ↔
      ∃ w, (h.GivesUnknownType entries w ∨ h.HasType "doc" entries ∧ h.GivesBadId entries w) ∧
        h.HoldsLong w := by
  have hr : h.MappingReading path ancestors a entries _ := mappingReading hv hp
  generalize h.error? ⟨path, .node ancestors, v⟩ = r at hr ⊢
  cases hr with
  | inItself ha hc =>
    refine iff_of_false (by simp) ?_
    rintro ⟨w, hw | ⟨hd, -⟩, -⟩
    · exact hw.not_hasType .category hc
    · exact hc.not_doc hd
  | noType hg =>
    refine iff_of_false (by simp) ?_
    rintro ⟨w, hw | ⟨hd, -⟩, -⟩
    · rw [given?_eq_some_iff.2 ⟨hw.1, hw.2.1⟩] at hg
      cases hg
    · exact not_hasType_of_given? hg hd
  | @unknownType w hw =>
    rw [Option.some.injEq, showing_eq_unshowable_iff]
    refine ⟨fun hlong => ⟨w, .inl hw, hlong⟩, ?_⟩
    rintro ⟨w', hw' | ⟨hd, -⟩, hlong⟩
    · obtain rfl := Option.some.inj (hw.1.symm.trans hw'.1)
      exact hlong
    · exact absurd hd (hw.not_hasType .doc)
  | doc ht =>
    rw [errorOf_eq_some_iff, docOfEntries_eq_unshowable_iff]
    refine exists_congr fun w => and_congr_left fun _ => ?_
    exact ⟨fun hw => .inr ⟨ht, hw⟩, fun hw => hw.elim (absurd ht <| ·.not_hasType .doc) (·.2)⟩
  | category ha ht =>
    refine iff_of_false (fun he => ?_) ?_
    · obtain ⟨_, hf⟩ := categoryHead_eq_error (errorOf_eq_some_iff.1 he)
      cases hf
    · rintro ⟨w, hw | ⟨hd, -⟩, -⟩
      · exact hw.not_hasType .category ht
      · exact ht.not_doc hd

theorem error?_eq_unshowable_iff (hp : h.AreAncestors p.role.ancestors) :
    h.error? p = some .unshowable ↔ ∃ w, h.Offends p w ∧ h.HoldsLong w := by
  obtain ⟨path, role, v⟩ := p
  cases role with
  | config =>
    refine iff_of_false (fun he => ?_) ?_
    · obtain ⟨_, hf⟩ := error?_of_config_or_items (.inl rfl) he
      cases hf
    · rintro ⟨w, ho, -⟩
      cases ho
  | items ancestors =>
    refine iff_of_false (fun he => ?_) ?_
    · obtain ⟨_, hf⟩ := error?_of_config_or_items (.inr ⟨_, rfl⟩) he
      cases hf
    · rintro ⟨w, ho, -⟩
      cases ho
  | groupName =>
    rw [error?_groupName_iff, showing_eq_unshowable_iff]
    constructor
    · rintro ⟨hk, hlong⟩
      exact ⟨v, .groupName hk, hlong⟩
    · rintro ⟨w, ho, hlong⟩
      cases ho with
      | groupName hk => exact ⟨hk, hlong⟩
  | node ancestors =>
    cases hv : h.view v with
    | text id =>
      refine iff_of_false (error?_text_ne_unshowable hv) ?_
      rintro ⟨w, ho, hlong⟩
      exact not_holdsLong_of_offends hv ho hlong
    | mapping a entries =>
      simp only [offends_mapping_iff hv]
      exact error?_mapping_eq_unshowable_iff hv hp
    | _ =>
      refine iff_of_false (by simp [error?, hv]) ?_
      rintro ⟨w, ho, -⟩
      cases ho <;> simp_all

/-! ## Values that are shown are parts of the configuration -/

theorem hasPart_of_step {q : Position} (hstep : Position.Step h p q) :
    h.HasPart p.value q.value := by
  cases hstep with
  | groupName hv he => exact (hasPart_of_entry hv he).1
  | group hv he => exact (hasPart_of_entry hv he).2
  | node hs _ hw => exact hasPart_of_sequence? hs (List.mem_of_getElem? hw)
  | items hv _ _ hw => exact hasPart_of_field? hv hw

theorem reaches_of_mem (hp : p ∈ h.positions config) : ReflTransGen h.HasPart config p.value := by
  rw [mem_positions_iff] at hp
  exact hp.lift Position.value fun _ _ => hasPart_of_step

theorem reaches_of_offends (ho : h.Offends p w) : ReflTransGen h.HasPart p.value w := by
  cases ho with
  | groupName => exact .refl
  | bareId => exact .refl
  | unknownType hv hw => exact .single (hasPart_of_field? hv hw.1)
  | badId hv _ hw => exact .single (hasPart_of_field? hv hw.1)

/-! ## Rejections of configurations -/

theorem mem_of_firstIllFormed (hp : h.FirstIllFormed config p) : p ∈ h.positions config := by
  obtain ⟨before, behind, hlist, -⟩ := hp
  simp [hlist]

theorem ofRaw_eq_surrogateId_iff :
    Tree.ofRaw h config = .error .surrogateId ↔
      ∃ p, h.FirstIllFormed config p ∧ h.RefusesId p := by
  rw [ofRaw_eq_error_iff]
  refine exists_congr fun p => and_congr_right fun hp => ?_
  exact error?_eq_surrogateId_iff (areAncestors_of_mem (mem_of_firstIllFormed hp))

theorem ofRaw_eq_unshowable_iff :
    Tree.ofRaw h config = .error .unshowable ↔
      ∃ p, h.FirstIllFormed config p ∧ ∃ w, h.Offends p w ∧ h.HoldsLong w := by
  rw [ofRaw_eq_error_iff]
  refine exists_congr fun p => and_congr_right fun hp => ?_
  exact error?_eq_unshowable_iff (areAncestors_of_mem (mem_of_firstIllFormed hp))

/-- A reason is missing only where the configuration holds an integer that is too long. -/
theorem holdsLong_of_unshowable (hr : Tree.ofRaw h config = .error .unshowable) :
    h.HoldsLong config := by
  obtain ⟨p, hp, w, ho, u, hu, hlong⟩ := ofRaw_eq_unshowable_iff.1 hr
  have hp := reaches_of_mem (mem_of_firstIllFormed hp)
  exact ⟨u, (hp.trans (reaches_of_offends ho)).trans hu, hlong⟩

/-- **How a configuration is rejected beside schema errors.**  An id is refused for a lone surrogate
exactly where this is what is wrong with the first ill-formed place, and the reason cannot be given
exactly where the first ill-formed place would have to show a value that holds an integer of too
many digits.  In all other cases a tree is read, or the error has a path and a reason. -/
theorem ofRaw_fails_beside_schema (h : Heap) (config : Value) :
    (Tree.ofRaw h config = .error .surrogateId ↔
        ∃ p, h.FirstIllFormed config p ∧ h.RefusesId p) ∧
      (Tree.ofRaw h config = .error .unshowable ↔
        ∃ p, h.FirstIllFormed config p ∧ ∃ w, h.Offends p w ∧ h.HoldsLong w) ∧
      ((∀ p, h.FirstIllFormed config p →
          ¬ h.RefusesId p ∧ ∀ w, h.Offends p w → ¬ h.HoldsLong w) →
        (∃ t, Tree.ofRaw h config = .ok t) ∨
          ∃ path fault, Tree.ofRaw h config = .error (.schema ⟨path, fault⟩)) := by
  refine ⟨ofRaw_eq_surrogateId_iff, ofRaw_eq_unshowable_iff, fun hnone => ?_⟩
  cases hr : Tree.ofRaw h config with
  | ok t => exact .inl ⟨t, rfl⟩
  | error e =>
    cases e with
    | schema e => exact .inr ⟨e.path, e.fault, rfl⟩
    | surrogateId =>
      obtain ⟨p, hp, hid⟩ := ofRaw_eq_surrogateId_iff.1 hr
      exact absurd hid (hnone p hp).1
    | unshowable =>
      obtain ⟨p, hp, w, hw, hlong⟩ := ofRaw_eq_unshowable_iff.1 hr
      exact absurd hlong ((hnone p hp).2 w hw)

/-- A configuration with one group of one node, which is a mapping that gives `type`. -/
def oneNodeHeap (type : Value) : Heap := ⟨#[
  .mapping [(.text "docs", .ref 1)],
  .list [.ref 2],
  .mapping [(.text "type", type)]]⟩

/-- A configuration with one group that holds a bare id. -/
def oneIdHeap (id : Text) : Heap := ⟨#[.mapping [(.text "docs", .ref 1)], .list [.text id]]⟩

theorem ofRaw_longType {n : Nat} (hn : showLimit ≤ n) :
    Tree.ofRaw (oneNodeHeap (.int n)) (.ref 0) = .error .unshowable := by
  have hr : Tree.ofRaw (oneNodeHeap (.int n)) (.ref 0) =
      .error ((oneNodeHeap (.int n)).showing (NodePath.child (.ofGroup "docs") 0) .unknownType
        (.int n)) := Tree.ofRaw_of_run rfl
  rw [hr, (showing_eq_unshowable_iff _).2 ⟨.int n, .refl, hn⟩]

/-- An id that is a lone surrogate, and a type that is an integer of 4301 digits, are not rejected
by a schema error. -/
theorem surrogate_and_longInteger_escape :
    ¬ (∀ h config, (∃ t, Tree.ofRaw h config = .ok t) ∨
        ∃ path fault, Tree.ofRaw h config = .error (.schema ⟨path, fault⟩)) ∧
      Tree.ofRaw (oneIdHeap [⟨0xD800, by decide⟩]) (.ref 0) = .error .surrogateId ∧
      Tree.ofRaw (oneNodeHeap (.int showLimit)) (.ref 0) = .error .unshowable := by
  have hid : Tree.ofRaw (oneIdHeap [⟨0xD800, by decide⟩]) (.ref 0) = .error .surrogateId :=
    Tree.ofRaw_of_run rfl
  refine ⟨fun hall => ?_, hid, ?_⟩
  · rcases hall (oneIdHeap [⟨0xD800, by decide⟩]) (.ref 0) with ⟨t, ht⟩ | ⟨path, fault, hf⟩
    · rw [hid] at ht
      cases ht
    · rw [hid] at hf
      cases hf
  · exact ofRaw_longType (Nat.le_refl _)

end Sidebar.Raw.Heap
