import Mathlib.Data.List.Forall2
import Sidebar.Proofs.Unsharing

/-!
# Sidebar.Proofs.Plain: values without the identity of their objects

A value in which nothing lies inside itself can be written down in full, each object at every place
where it stands.  `Plain` is what is written then, and `Heap.Represents` says that a value in a heap
is written so.

* `exists_represents_iff`: a value can be written down exactly when there is no cycle in it.
* `Represents.unique`: there is one way to do it.
* `Encloses.not_mem`: a walk through what can be written down does not meet an object again.
* `exists_heap_represents`: everything that is written down is a value in some heap.
-/

namespace Sidebar.Raw

/-! ## Plain values -/

/-- A value that is no object. -/
inductive Atom
  | null
  | bool (b : Bool)
  | int (n : Int)
  | float (x : Binary64)
  | text (t : Text)
  | bytes (bs : List UInt8)

/-- The value, as values of a heap are viewed. -/
def Atom.view : Atom → View
  | null => .null
  | bool b => .bool b
  | int n => .int n
  | float x => .float x
  | text t => .text t
  | bytes bs => .bytes bs

/-- The value itself. -/
def Atom.value : Atom → Value
  | null => .null
  | bool b => .bool b
  | int n => .int n
  | float x => .float x
  | text t => .text t
  | bytes bs => .bytes bs

theorem Atom.view_injective : Function.Injective Atom.view := by
  intro a b hab
  cases a <;> cases b <;> simp_all [Atom.view]

/-- What an object without keys is. -/
inductive Collection
  | list
  | tuple
  | set

namespace Collection

/-- An object without keys, as values of a heap are viewed. -/
def view (a : Address) (items : List Value) : Collection → View
  | list => .list a items
  | tuple => .tuple a items
  | set => .set a items

/-- The object that holds the items. -/
def object (items : List Value) : Collection → Object
  | list => .list items
  | tuple => .tuple items
  | set => .set items

/-- The name of the type. -/
def typeName : Collection → Text
  | list => "list"
  | tuple => "tuple"
  | set => "set"

end Collection

/-- A value without the identity of objects. -/
inductive Plain
  | atom (a : Atom)
  | collection (kind : Collection) (items : List Plain)
  | mapping (entries : List (Plain × Plain))

namespace Plain

/-- The absent value. -/
@[match_pattern]
abbrev null : Plain := .atom .null

/-- A text. -/
@[match_pattern]
abbrev text (t : Text) : Plain := .atom (.text t)

/-- A list. -/
@[match_pattern]
abbrev list (items : List Plain) : Plain := .collection .list items

/-- A tuple. -/
@[match_pattern]
abbrev tuple (items : List Plain) : Plain := .collection .tuple items

/-- What a value is made of: its items or elements, or its keys and the values under them. -/
def parts : Plain → List Plain
  | atom _ => []
  | collection _ items => items
  | mapping entries => entries.flatMap fun e => [e.1, e.2]

theorem sizeOf_lt_of_mem_entries {e : Plain × Plain} {entries : List (Plain × Plain)}
    (he : e ∈ entries) : sizeOf e.1 < sizeOf entries ∧ sizeOf e.2 < sizeOf entries := by
  have hlt := List.sizeOf_lt_of_mem he
  obtain ⟨key, value⟩ := e
  rw [Prod.mk.sizeOf_spec] at hlt
  dsimp only
  omega

theorem sizeOf_lt_of_mem_parts {r s : Plain} (hs : s ∈ r.parts) : sizeOf s < sizeOf r := by
  cases r with
  | atom a => cases hs
  | collection kind items =>
    have hlt := List.sizeOf_lt_of_mem (show s ∈ items from hs)
    rw [collection.sizeOf_spec]
    omega
  | mapping entries =>
    obtain ⟨e, he, hs⟩ := List.mem_flatMap.1 hs
    obtain ⟨hkey, hvalue⟩ := sizeOf_lt_of_mem_entries he
    rw [mapping.sizeOf_spec]
    rcases List.mem_pair.1 hs with rfl | rfl <;> omega

theorem keys_subset_parts (entries : List (Plain × Plain)) :
    entries.map (·.1) ⊆ (mapping entries).parts := by
  intro r hr
  obtain ⟨e, he, rfl⟩ := List.mem_map.1 hr
  exact List.mem_flatMap.2 ⟨e, he, List.mem_pair.2 (.inl rfl)⟩

theorem values_subset_parts (entries : List (Plain × Plain)) :
    entries.map (·.2) ⊆ (mapping entries).parts := by
  intro r hr
  obtain ⟨e, he, rfl⟩ := List.mem_map.1 hr
  exact List.mem_flatMap.2 ⟨e, he, List.mem_pair.2 (.inr rfl)⟩

/-- Induction over the parts of a value. -/
theorem parts_induction {motive : Plain → Prop} (step : ∀ r, (∀ s ∈ r.parts, motive s) → motive r)
    (r : Plain) : motive r := by
  induction hn : sizeOf r using Nat.strongRecOn generalizing r with
  | ind n ih =>
    exact step r fun s hs => ih _ (hn ▸ sizeOf_lt_of_mem_parts hs) s rfl

/-- The name of the type of a value. -/
def typeName : Plain → Text
  | .atom a => a.view.typeName
  | .collection kind _ => kind.typeName
  | .mapping _ => "dict"

end Plain

namespace Heap

open Relation

variable {h t : Heap} {v w : Value} {r s : Plain}

/-! ## Values in a heap -/

/-- The value is, in the heap, what is written. -/
inductive Represents (h : Heap) : Value → Plain → Prop
  | atom {v : Value} {a : Atom} (hv : h.view v = a.view) : Represents h v (.atom a)
  | collection {kind : Collection} {v : Value} {a : Address} {items : List Value}
      {rs : List Plain} (hv : h.view v = kind.view a items)
      (hs : List.Forall₂ (Represents h) items rs) : Represents h v (.collection kind rs)
  | mapping {v : Value} {a : Address} {entries : List (Value × Value)} {es : List (Plain × Plain)}
      (hv : h.view v = .mapping a entries)
      (hkeys : List.Forall₂ (Represents h) (entries.map (·.1)) (es.map (·.1)))
      (hvalues : List.Forall₂ (Represents h) (entries.map (·.2)) (es.map (·.2))) :
      Represents h v (.mapping es)

theorem represents_text (h : Heap) (t : Text) : h.Represents (.text t) (.text t) := .atom rfl

theorem represents_texts (h : Heap) (ts : List Text) :
    List.Forall₂ h.Represents (ts.map .text) (ts.map .text) :=
  List.forall₂_map_left_iff.2 (List.forall₂_map_right_iff.2
    (List.forall₂_same.2 fun t _ => h.represents_text t))

/-- The view and the value are of one kind, and the same if they are no object. -/
inductive SameShape : View → Plain → Prop
  | null : SameShape .null .null
  | bool (b : Bool) : SameShape (.bool b) (.atom (.bool b))
  | int (n : Int) : SameShape (.int n) (.atom (.int n))
  | float (x : Binary64) : SameShape (.float x) (.atom (.float x))
  | text (t : Text) : SameShape (.text t) (.text t)
  | bytes (bs : List UInt8) : SameShape (.bytes bs) (.atom (.bytes bs))
  | list {a : Address} {items : List Value} {rs : List Plain} :
      SameShape (.list a items) (.list rs)
  | tuple {a : Address} {items : List Value} {rs : List Plain} :
      SameShape (.tuple a items) (.tuple rs)
  | set {a : Address} {elements : List Value} {rs : List Plain} :
      SameShape (.set a elements) (.collection .set rs)
  | mapping {a : Address} {entries : List (Value × Value)} {es : List (Plain × Plain)} :
      SameShape (.mapping a entries) (.mapping es)

/-! The three kinds of views can be told apart. -/

theorem view_cases (found : View) :
    (∃ a : Atom, found = a.view) ∨ (∃ (kind : Collection) (a : Address) (items : List Value),
      found = kind.view a items) ∨ ∃ a entries, found = .mapping a entries := by
  cases found with
  | null => exact .inl ⟨.null, rfl⟩
  | bool b => exact .inl ⟨.bool b, rfl⟩
  | int n => exact .inl ⟨.int n, rfl⟩
  | float x => exact .inl ⟨.float x, rfl⟩
  | text t => exact .inl ⟨.text t, rfl⟩
  | bytes bs => exact .inl ⟨.bytes bs, rfl⟩
  | list a items => exact .inr (.inl ⟨.list, a, items, rfl⟩)
  | tuple a items => exact .inr (.inl ⟨.tuple, a, items, rfl⟩)
  | set a elements => exact .inr (.inl ⟨.set, a, elements, rfl⟩)
  | mapping a entries => exact .inr (.inr ⟨a, entries, rfl⟩)

section Views

variable {kind kind' : Collection} {a b : Address} {items items' : List Value}

theorem collection_view_inj (he : kind.view a items = kind'.view b items') :
    kind = kind' ∧ items = items' := by
  cases kind <;> cases kind' <;> cases he <;> exact ⟨rfl, rfl⟩

theorem atom_ne_collection (c : Atom) : c.view ≠ kind.view a items := by
  cases c <;> cases kind <;> exact fun he => by cases he

theorem atom_ne_mapping (c : Atom) {entries : List (Value × Value)} :
    c.view ≠ .mapping a entries := by
  cases c <;> exact fun he => by cases he

theorem collection_ne_mapping {entries : List (Value × Value)} :
    kind.view a items ≠ .mapping b entries := by
  cases kind <;> exact fun he => by cases he

theorem address?_collection : (kind.view a items).address? = some a := by
  cases kind <;> rfl

theorem parts_collection (hv : h.view v = kind.view a items) : h.parts v = items := by
  rw [parts, hv]
  cases kind <;> rfl

end Views

namespace Represents

variable {kind : Collection} {a : Address} {items : List Value}

/-! What is viewed tells what is written. -/

theorem of_atom {a : Atom} (hr : h.Represents v r) (hv : h.view v = a.view) : r = .atom a := by
  cases hr with
  | atom hv' => rw [Atom.view_injective (hv.symm.trans hv')]
  | collection hv' => exact absurd (hv.symm.trans hv') (atom_ne_collection a)
  | mapping hv' => exact absurd (hv.symm.trans hv') (atom_ne_mapping a)

theorem of_collection (hr : h.Represents v r) (hv : h.view v = kind.view a items) :
    ∃ rs, r = .collection kind rs ∧ List.Forall₂ h.Represents items rs := by
  cases hr with
  | atom hv' => exact absurd (hv'.symm.trans hv) (atom_ne_collection _)
  | collection hv' hs =>
    obtain ⟨rfl, rfl⟩ := collection_view_inj (hv.symm.trans hv')
    exact ⟨_, rfl, hs⟩
  | mapping hv' => exact absurd (hv.symm.trans hv') collection_ne_mapping

theorem of_mapping {entries : List (Value × Value)} (hr : h.Represents v r)
    (hv : h.view v = .mapping a entries) :
    ∃ es : List (Plain × Plain), r = .mapping es ∧
      List.Forall₂ h.Represents (entries.map (·.1)) (es.map (·.1)) ∧
      List.Forall₂ h.Represents (entries.map (·.2)) (es.map (·.2)) := by
  cases hr with
  | atom hv' => exact absurd (hv'.symm.trans hv) (atom_ne_mapping _)
  | collection hv' => exact absurd (hv'.symm.trans hv) collection_ne_mapping
  | mapping hv' hkeys hvalues =>
    obtain ⟨-, rfl⟩ := View.mapping.inj (hv.symm.trans hv')
    exact ⟨_, rfl, hkeys, hvalues⟩

theorem sameShape (hr : h.Represents v r) : SameShape (h.view v) r := by
  cases hr with
  | @atom v a hv =>
    rw [hv]
    cases a <;> constructor
  | @collection kind v a items rs hv =>
    rw [hv]
    cases kind <;> constructor
  | mapping hv =>
    rw [hv]
    constructor

theorem typeName_eq (hr : h.Represents v r) : (h.view v).typeName = r.typeName := by
  have hs := hr.sameShape
  generalize h.view v = found at hs ⊢
  cases hs <;> rfl

theorem text_iff (hr : h.Represents v r) {t : Text} : h.view v = .text t ↔ r = .text t := by
  have hs := hr.sameShape
  generalize h.view v = found at hs ⊢
  cases hs <;> simp

theorem null_iff (hr : h.Represents v r) : h.view v = .null ↔ r = .null := by
  have hs := hr.sameShape
  generalize h.view v = found at hs ⊢
  cases hs <;> simp

end Represents

theorem forall₂_unique {vs : List Value} {rs ss : List Plain}
    (hu : ∀ r ∈ rs, ∀ v s, h.Represents v r → h.Represents v s → r = s)
    (hr : List.Forall₂ h.Represents vs rs) (hs : List.Forall₂ h.Represents vs ss) : rs = ss := by
  induction hr generalizing ss with
  | nil =>
    cases hs
    rfl
  | cons hvr _ ih =>
    cases hs with
    | cons hvs hs =>
      rw [hu _ List.mem_cons_self _ _ hvr hvs, ih (fun r hr => hu r (List.mem_cons_of_mem _ hr)) hs]

/-- There is one way to write a value. -/
theorem Represents.unique (hr : h.Represents v r) (hs : h.Represents v s) : r = s := by
  induction r using Plain.parts_induction generalizing v s with
  | step r ih =>
    have hu : ∀ r' ∈ r.parts, ∀ v s, h.Represents v r' → h.Represents v s → r' = s :=
      fun r' hr' v s hv hs => ih r' hr' hv hs
    cases hr with
    | atom hv => exact (hs.of_atom hv).symm
    | collection hv hrs =>
      obtain ⟨ss, rfl, hss⟩ := hs.of_collection hv
      exact congrArg (Plain.collection _) (forall₂_unique hu hrs hss)
    | @mapping v a entries es hv hkeys hvalues =>
      obtain ⟨es', rfl, hkeys', hvalues'⟩ := hs.of_mapping hv
      have hfst := forall₂_unique (fun r hr => hu r (Plain.keys_subset_parts es hr)) hkeys hkeys'
      have hsnd :=
        forall₂_unique (fun r hr => hu r (Plain.values_subset_parts es hr)) hvalues hvalues'
      rw [List.zip_of_prod hfst hsnd, ← List.zip_of_prod rfl rfl]

/-! ## Cycles -/

/-- Nothing in the value lies inside itself. -/
def CycleFree (h : Heap) (v : Value) : Prop :=
  ∀ w, ReflTransGen h.HasPart v w → ¬ TransGen h.HasPart w w

theorem mem_of_forall₂ {vs : List Value} {rs : List Plain}
    (hs : List.Forall₂ h.Represents vs rs) (hw : w ∈ vs) : ∃ r ∈ rs, h.Represents w r := by
  induction hs with
  | nil => cases hw
  | cons hv _ ih =>
    rcases List.mem_cons.1 hw with rfl | hw
    · exact ⟨_, List.mem_cons_self, hv⟩
    · obtain ⟨r, hr, hwr⟩ := ih hw
      exact ⟨r, List.mem_cons_of_mem _ hr, hwr⟩

/-- A part of a value is written as a part of what the value is written as. -/
theorem Represents.part (hr : h.Represents v r) (hw : h.HasPart v w) :
    ∃ s ∈ r.parts, h.Represents w s := by
  rw [HasPart] at hw
  cases hr with
  | @atom v a hv =>
    rw [parts, hv] at hw
    cases a <;> cases hw
  | collection hv hs =>
    rw [parts_collection hv] at hw
    exact mem_of_forall₂ hs hw
  | @mapping v a entries es hv hkeys hvalues =>
    rw [parts, hv] at hw
    obtain ⟨e, he, hw⟩ := List.mem_flatMap.1 hw
    rcases List.mem_pair.1 hw with rfl | rfl
    · obtain ⟨s, hs, hws⟩ := mem_of_forall₂ hkeys (List.mem_map_of_mem he)
      exact ⟨s, Plain.keys_subset_parts es hs, hws⟩
    · obtain ⟨s, hs, hws⟩ := mem_of_forall₂ hvalues (List.mem_map_of_mem he)
      exact ⟨s, Plain.values_subset_parts es hs, hws⟩

theorem Represents.sizeOf_lt (hr : h.Represents v r) (hw : TransGen h.HasPart v w) :
    ∃ s, h.Represents w s ∧ sizeOf s < sizeOf r := by
  induction hw with
  | single hw =>
    obtain ⟨s, hs, hws⟩ := hr.part hw
    exact ⟨s, hws, Plain.sizeOf_lt_of_mem_parts hs⟩
  | tail _ hw ih =>
    obtain ⟨s, hvs, hlt⟩ := ih
    obtain ⟨s', hs', hws⟩ := hvs.part hw
    exact ⟨s', hws, Nat.lt_trans (Plain.sizeOf_lt_of_mem_parts hs') hlt⟩

/-- What can be written down has no cycle: parts are smaller. -/
theorem Represents.cycleFree (hr : h.Represents v r) : h.CycleFree v := by
  intro w hw hcycle
  have hwritten : ∃ s, h.Represents w s := by
    rcases reflTransGen_iff_eq_or_transGen.1 hw with rfl | hw
    · exact ⟨r, hr⟩
    · obtain ⟨s, hs, -⟩ := hr.sizeOf_lt hw
      exact ⟨s, hs⟩
  obtain ⟨s, hs⟩ := hwritten
  obtain ⟨s', hs', hlt⟩ := hs.sizeOf_lt hcycle
  rw [hs.unique hs'] at hlt
  exact Nat.lt_irrefl _ hlt

theorem exists_forall₂ {vs : List Value} (hvs : ∀ w ∈ vs, ∃ r, h.Represents w r) :
    ∃ rs, List.Forall₂ h.Represents vs rs := by
  induction vs with
  | nil => exact ⟨[], .nil⟩
  | cons v vs ih =>
    obtain ⟨r, hr⟩ := hvs v List.mem_cons_self
    obtain ⟨rs, hrs⟩ := ih fun w hw => hvs w (List.mem_cons_of_mem _ hw)
    exact ⟨r :: rs, .cons hr hrs⟩

/-- A value is written down when its parts are. -/
theorem exists_represents_of_parts (hparts : ∀ w, h.HasPart v w → ∃ r, h.Represents w r) :
    ∃ r, h.Represents v r := by
  simp only [HasPart] at hparts
  rcases view_cases (h.view v) with ⟨a, hv⟩ | ⟨kind, a, items, hv⟩ | ⟨a, entries, hv⟩
  · exact ⟨.atom a, .atom hv⟩
  · rw [parts_collection hv] at hparts
    obtain ⟨rs, hrs⟩ := exists_forall₂ hparts
    exact ⟨.collection kind rs, .collection hv hrs⟩
  · rw [parts, hv] at hparts
    have hentry : ∀ e ∈ entries, (∃ r, h.Represents e.1 r) ∧ ∃ r, h.Represents e.2 r := fun e he =>
      ⟨hparts _ (List.mem_flatMap.2 ⟨e, he, List.mem_pair.2 (.inl rfl)⟩),
        hparts _ (List.mem_flatMap.2 ⟨e, he, List.mem_pair.2 (.inr rfl)⟩)⟩
    obtain ⟨ks, hks⟩ : ∃ ks, List.Forall₂ h.Represents (entries.map (·.1)) ks :=
      exists_forall₂ (List.forall_mem_map.2 fun e he => (hentry e he).1)
    obtain ⟨rs, hrs⟩ : ∃ rs, List.Forall₂ h.Represents (entries.map (·.2)) rs :=
      exists_forall₂ (List.forall_mem_map.2 fun e he => (hentry e he).2)
    have hlength : ks.length = rs.length := by
      rw [← hks.length_eq, ← hrs.length_eq, List.length_map, List.length_map]
    refine ⟨.mapping (ks.zip rs), .mapping hv ?_ ?_⟩
    · rwa [List.map_fst_zip (Nat.le_of_eq hlength)]
    · rwa [List.map_snd_zip (Nat.le_of_eq hlength.symm)]

/-- A walk that enters no object twice gets to the end of a value without a cycle. -/
theorem exists_represents_of_cycleFree (active : List Address) (hv : h.CycleFree v)
    (hactive : ∀ a ∈ active, TransGen h.HasPart (.ref a) v) : ∃ r, h.Represents v r := by
  induction active using ancestors_induction (h := h) generalizing v with
  | step active ih =>
    refine exists_represents_of_parts fun w hw => ?_
    obtain ⟨a, ha⟩ := exists_address_of_part hw
    obtain rfl := eq_ref_of_address? ha
    have hnot : a ∉ active := fun hm => hv _ .refl (hactive a hm)
    refine ih a (lt_size_of_view ha) hnot (fun u hu => hv u (.head hw hu)) fun b hb => ?_
    rcases List.mem_cons.1 hb with rfl | hb
    · exact .single hw
    · exact (hactive b hb).tail hw

/-- **What can be written down**: exactly what has no cycle in it. -/
theorem exists_represents_iff : (∃ r, h.Represents v r) ↔ h.CycleFree v :=
  ⟨fun ⟨_, hr⟩ => hr.cycleFree,
    fun hv => exists_represents_of_cycleFree [] hv fun _ ha => absurd ha List.not_mem_nil⟩

/-- The objects, each written down, are larger than what is written. -/
def Encloses (h : Heap) (ancestors : List Address) (r : Plain) : Prop :=
  ∀ a ∈ ancestors, ∃ s, h.Represents (.ref a) s ∧ sizeOf r < sizeOf s

section Encloses

variable {ancestors : List Address} {a : Address}

theorem encloses_nil : h.Encloses [] r := fun _ ha => absurd ha List.not_mem_nil

/-- An object does not lie inside itself. -/
theorem Encloses.not_mem (he : h.Encloses ancestors r) (hr : h.Represents v r)
    (ha : (h.view v).address? = some a) : a ∉ ancestors := by
  intro hm
  obtain ⟨s, hs, hlt⟩ := he a hm
  obtain rfl := eq_ref_of_address? ha
  rw [hr.unique hs] at hlt
  exact Nat.lt_irrefl _ hlt

/-- An object and all that it lies in are around its parts. -/
theorem Encloses.cons (he : h.Encloses ancestors r) (hr : h.Represents v r)
    (ha : (h.view v).address? = some a) (hs : s ∈ r.parts) : h.Encloses (a :: ancestors) s := by
  have hlt := Plain.sizeOf_lt_of_mem_parts hs
  intro b hb
  rcases List.mem_cons.1 hb with rfl | hb
  · exact ⟨r, eq_ref_of_address? ha ▸ hr, hlt⟩
  · obtain ⟨u, hu, hru⟩ := he b hb
    exact ⟨u, hu, Nat.lt_trans hlt hru⟩

end Encloses

/-! ## Entries -/

/-- The key and the value of an entry are those that are written. -/
def RepresentsEntry (h : Heap) (e : Value × Value) (p : Plain × Plain) : Prop :=
  h.Represents e.1 p.1 ∧ h.Represents e.2 p.2

theorem forall₂_representsEntry_iff {entries : List (Value × Value)} {es : List (Plain × Plain)} :
    List.Forall₂ h.RepresentsEntry entries es ↔
      List.Forall₂ h.Represents (entries.map (·.1)) (es.map (·.1)) ∧
        List.Forall₂ h.Represents (entries.map (·.2)) (es.map (·.2)) := by
  simp only [List.forall₂_map_left_iff, List.forall₂_map_right_iff]
  constructor
  · exact fun hes => ⟨hes.imp fun _ _ he => he.1, hes.imp fun _ _ he => he.2⟩
  · rintro ⟨hkeys, hvalues⟩
    induction hkeys with
    | nil => exact .nil
    | cons hkey _ ih =>
      cases hvalues with
      | cons hvalue hvalues => exact .cons ⟨hkey, hvalue⟩ (ih hvalues)

/-! ## Writing -/

mutual

/-- Adds the objects of what is written. -/
def addPlain (s : Heap) : Plain → Heap × Value
  | .atom a => (s, a.value)
  | .collection kind items =>
    let added := addPlains s items
    added.1.alloc (kind.object added.2)
  | .mapping entries =>
    let added := addPlainEntries s entries
    added.1.alloc (.mapping added.2)

/-- Adds the objects of several values. -/
def addPlains (s : Heap) : List Plain → Heap × List Value
  | [] => (s, [])
  | r :: rs =>
    let first := addPlain s r
    let rest := addPlains first.1 rs
    (rest.1, first.2 :: rest.2)

/-- Adds the objects of entries. -/
def addPlainEntries (s : Heap) : List (Plain × Plain) → Heap × List (Value × Value)
  | [] => (s, [])
  | (key, r) :: entries =>
    let first := addPlain s key
    let second := addPlain first.1 r
    let rest := addPlainEntries second.1 entries
    (rest.1, (first.2, second.2) :: rest.2)

end

/-- Behind the objects of any heap the value can be written, and stays what it is when objects are
added. -/
def Addable (r : Plain) : Prop :=
  ∀ s : Heap, (s.addPlain r).1.Extends s ∧
    ∀ t : Heap, t.Extends (s.addPlain r).1 → t.Represents (s.addPlain r).2 r

theorem addPlains_represents {rs : List Plain} (hrs : ∀ r ∈ rs, Addable r) (s : Heap) :
    (s.addPlains rs).1.Extends s ∧
      ∀ t : Heap, t.Extends (s.addPlains rs).1 →
        List.Forall₂ t.Represents (s.addPlains rs).2 rs := by
  induction rs generalizing s with
  | nil => exact ⟨.refl s, fun _ _ => .nil⟩
  | cons r rs ih =>
    obtain ⟨hfirst, hr⟩ := hrs r List.mem_cons_self s
    obtain ⟨hrest, hrs⟩ := ih (fun r hr => hrs r (List.mem_cons_of_mem _ hr)) (s.addPlain r).1
    exact ⟨hrest.trans hfirst, fun t ht => .cons (hr t (ht.trans hrest)) (hrs t ht)⟩

theorem addPlainEntries_represents {es : List (Plain × Plain)}
    (hes : ∀ e ∈ es, Addable e.1 ∧ Addable e.2) (s : Heap) :
    (s.addPlainEntries es).1.Extends s ∧
      ∀ t : Heap, t.Extends (s.addPlainEntries es).1 →
        List.Forall₂ t.RepresentsEntry (s.addPlainEntries es).2 es := by
  induction es generalizing s with
  | nil => exact ⟨.refl s, fun _ _ => .nil⟩
  | cons e es ih =>
    obtain ⟨key, r⟩ := e
    obtain ⟨hkey, hr⟩ := hes _ List.mem_cons_self
    obtain ⟨hfirst, hkey⟩ := hkey s
    obtain ⟨hsecond, hr⟩ := hr (s.addPlain key).1
    obtain ⟨hrest, hes⟩ :=
      ih (fun e he => hes e (List.mem_cons_of_mem _ he)) ((s.addPlain key).1.addPlain r).1
    refine ⟨hrest.trans (hsecond.trans hfirst), fun t ht => ?_⟩
    exact .cons ⟨hkey t (ht.trans (hrest.trans hsecond)), hr t (ht.trans hrest)⟩ (hes t ht)

theorem view_collection {kind : Collection} {a : Address} {items : List Value}
    (ho : t.object? a = some (kind.object items)) : t.view (.ref a) = kind.view a items := by
  rw [view, ho]
  cases kind <;> rfl

theorem view_value (a : Atom) : t.view a.value = a.view := by
  cases a <;> rfl

theorem represents_alloc {before : Heap} {o : Object} (ht : t.Extends before)
    (hr : ∀ u : Heap, u.Extends t → u.object? t.objects.size = some o →
      u.Represents (.ref t.objects.size) r) :
    (t.alloc o).1.Extends before ∧
      ∀ u : Heap, u.Extends (t.alloc o).1 → u.Represents (t.alloc o).2 r := by
  have halloc := extends_alloc t o
  exact ⟨halloc.trans ht, fun u hu => hr u (hu.trans halloc) (hu _ _ (object?_alloc t o))⟩

theorem addable (r : Plain) : Addable r := by
  induction r using Plain.parts_induction with
  | step r ih =>
    intro s
    cases r with
    | atom a => exact ⟨.refl s, fun t _ => .atom (view_value a)⟩
    | collection kind items =>
      obtain ⟨hadded, hitems⟩ := addPlains_represents ih s
      exact represents_alloc hadded fun t ht ho => .collection (view_collection ho) (hitems t ht)
    | mapping es =>
      have hes : ∀ e ∈ es, Addable e.1 ∧ Addable e.2 := fun e he =>
        ⟨ih _ (Plain.keys_subset_parts es (List.mem_map_of_mem he)),
          ih _ (Plain.values_subset_parts es (List.mem_map_of_mem he))⟩
      obtain ⟨hadded, hentries⟩ := addPlainEntries_represents hes s
      refine represents_alloc hadded fun t ht ho => ?_
      obtain ⟨hkeys, hvalues⟩ := forall₂_representsEntry_iff.1 (hentries t ht)
      exact .mapping (view_of_object? ho) hkeys hvalues

theorem represents_addPlain (r : Plain) : (empty.addPlain r).1.Represents (empty.addPlain r).2 r :=
  (addable r empty).2 _ (.refl _)

/-- **Everything that is written down is a value** in some heap. -/
theorem exists_heap_represents (r : Plain) : ∃ (h : Heap) (v : Value), h.Represents v r :=
  ⟨_, _, represents_addPlain r⟩

end Heap

end Sidebar.Raw
