import Sidebar.Proofs.Positions

/-!
# Sidebar.Proofs.Shown: which values can be shown

A value is shown by its parts, and an object that is met again inside itself by dots, so the only
thing that keeps a value from being shown is an integer that is too long, at whatever depth.  Main
statement: `print?_eq_none_iff`.

The integer may lie behind a cycle that the walk cuts off; a shortest way to it meets no object
twice, and this is the way that the walk finds (`exists_last_exit`).
-/

namespace Sidebar.Raw

open Relation

/-- The value is an integer of more digits than can be shown. -/
def View.IsLong : View → Prop
  | .int n => showLimit ≤ n.natAbs
  | _ => False

/-- The values that an object holds. -/
def Object.values : Object → List Value
  | .list items => items
  | .tuple items => items
  | .mapping entries => entries.flatMap fun e => [e.1, e.2]
  | .set elements => elements

namespace Heap

variable {h : Heap} {active : List Address} {v w : Value}

/-- What a value is shown by: its items or elements, or its keys and the values under them. -/
def parts (h : Heap) (v : Value) : List Value :=
  match h.view v with
  | .list _ items => items
  | .tuple _ items => items
  | .set _ elements => elements
  | .mapping _ entries => entries.flatMap fun e => [e.1, e.2]
  | _ => []

/-- The second value is a part of the first. -/
def HasPart (h : Heap) (v w : Value) : Prop := w ∈ h.parts v

/-- A part of a value is held by one of the objects. -/
theorem exists_object_of_part (hw : h.HasPart v w) : ∃ o ∈ h.objects, w ∈ o.values := by
  rw [HasPart, parts] at hw
  cases v with
  | ref a =>
    rw [view] at hw
    cases ho : h.object? a with
    | none => simp [ho] at hw
    | some o =>
      refine ⟨o, Array.mem_of_getElem? ho, ?_⟩
      cases o <;> simpa [ho, Object.values] using hw
  | _ => simp [view] at hw

theorem hasPart_of_entry {a : Address} {entries : List (Value × Value)} {e : Value × Value}
    (hv : h.view v = .mapping a entries) (he : e ∈ entries) :
    h.HasPart v e.1 ∧ h.HasPart v e.2 := by
  simp only [HasPart, parts, hv, List.mem_flatMap]
  exact ⟨⟨e, he, List.mem_cons_self⟩, ⟨e, he, List.mem_cons_of_mem _ List.mem_cons_self⟩⟩

theorem hasPart_of_field? {a : Address} {entries : List (Value × Value)} {key : Text}
    (hv : h.view v = .mapping a entries) (hw : field? key entries = some w) : h.HasPart v w := by
  obtain ⟨before, behind, rfl, -⟩ := List.lookup_eq_some_iff.1 hw
  exact (hasPart_of_entry (e := (.text key, w)) hv (by simp)).2

theorem hasPart_of_sequence? {a : Address} {nodes : List Value}
    (hs : h.sequence? v = some (a, nodes)) (hw : w ∈ nodes) : h.HasPart v w := by
  unfold sequence? at hs
  rw [HasPart, parts]
  split at hs <;> simp_all

/-- The value is an integer that is too long, or one is found in its parts, or their parts. -/
def HoldsLong (h : Heap) (v : Value) : Prop := ∃ w, ReflTransGen h.HasPart v w ∧ (h.view w).IsLong

theorem printAll_eq_none_iff (vs : List Value) :
    h.printAll active vs = none ↔ ∃ w ∈ vs, h.printFrom active w = none := by
  induction vs with
  | nil => simp [printAll]
  | cons v vs ih =>
    rw [printAll]
    cases hv : h.printFrom active v with
    | none => simp [hv]
    | some part =>
      cases hvs : h.printAll active vs with
      | none => simpa [hv] using ih.1 hvs
      | some parts => simpa [hv, hvs] using (not_congr ih).1 (by simp [hvs])

theorem printEntries_eq_none_iff (es : List (Value × Value)) :
    h.printEntries active es = none ↔
      ∃ w ∈ es.flatMap fun e => [e.1, e.2], h.printFrom active w = none := by
  induction es with
  | nil => simp [printEntries]
  | cons e es ih =>
    obtain ⟨key, v⟩ := e
    rw [printEntries, List.flatMap_cons]
    cases hk : h.printFrom active key with
    | none => simp [hk]
    | some k =>
      cases hv : h.printFrom active v with
      | none => simp [hk, hv]
      | some part =>
        cases hes : h.printEntries active es with
        | none => simpa [hk, hv] using ih.1 hes
        | some parts => simpa [hk, hv, hes] using (not_congr ih).1 (by simp [hes])

/-- **One step of showing a value**: it is too long itself, or it is entered and one of its parts
cannot be shown. -/
theorem printFrom_eq_none_iff :
    h.printFrom active v = none ↔
      (h.view v).IsLong ∨ ∃ a, (h.view v).address? = some a ∧ a ∉ active ∧
        ∃ w ∈ h.parts v, h.printFrom (a :: active) w = none := by
  rw [printFrom, parts]
  split
  · next hv => simp [hv, View.IsLong, View.address?]
  · next hv => simp [hv, View.IsLong, View.address?]
  · next n hv => simp [hv, View.IsLong, View.address?]
  · next hv => simp [hv, View.IsLong, View.address?]
  · next hv => simp [hv, View.IsLong, View.address?]
  · next hv => simp [hv, View.IsLong, View.address?]
  · next a items hv =>
    by_cases ha : a ∈ active <;> simp [hv, View.IsLong, View.address?, ha, printAll_eq_none_iff]
  · next a items hv =>
    by_cases ha : a ∈ active <;> simp [hv, View.IsLong, View.address?, ha, printAll_eq_none_iff]
  · next a entries hv =>
    by_cases ha : a ∈ active <;> simp [hv, View.IsLong, View.address?, ha, printEntries_eq_none_iff]
  · next a elements hv =>
    by_cases ha : a ∈ active <;> simp [hv, View.IsLong, View.address?, ha, printAll_eq_none_iff]

/-- What is not shown holds an integer that is too long. -/
theorem holdsLong_of_printFrom (hp : h.printFrom active v = none) : h.HoldsLong v := by
  induction active using ancestors_induction (h := h) generalizing v with
  | step active ih =>
    rcases printFrom_eq_none_iff.1 hp with hlong | ⟨a, ha, hn, w, hw, hpw⟩
    · exact ⟨v, .refl, hlong⟩
    · obtain ⟨u, hu, hlong⟩ := ih a (lt_size_of_view ha) hn hpw
      exact ⟨u, .head hw hu, hlong⟩

/-- A way from a place to another goes on from its last visit of the first one. -/
theorem exists_last_exit {α : Type} {r : α → α → Prop} {x y : α} (hr : ReflTransGen r x y) :
    x = y ∨ ∃ z, r x z ∧ z ≠ x ∧ ReflTransGen (fun a b => r a b ∧ b ≠ x) z y := by
  induction hr with
  | refl => exact .inl rfl
  | @tail b c _ hbc ih =>
    by_cases hc : c = x
    · exact .inl hc.symm
    · rcases ih with rfl | ⟨z, hxz, hz, hzb⟩
      · exact .inr ⟨c, hbc, hc, .refl⟩
      · exact .inr ⟨z, hxz, hz, hzb.tail ⟨hbc, hc⟩⟩

/-- A part that is none of the objects `active`. -/
def HasPartOutside (h : Heap) (active : List Address) (v w : Value) : Prop :=
  h.HasPart v w ∧ ∀ a ∈ active, w ≠ .ref a

theorem exists_address_of_part (hw : h.HasPart v w) : ∃ a, (h.view v).address? = some a := by
  rw [HasPart, parts] at hw
  cases hv : h.view v <;> simp_all [View.address?]

/-- An integer that is too long and can be reached outside the objects that are being shown keeps a
value from being shown. -/
theorem printFrom_of_reaches (hv : ∀ a ∈ active, v ≠ .ref a)
    (hr : ReflTransGen (h.HasPartOutside active) v w) (hlong : (h.view w).IsLong) :
    h.printFrom active v = none := by
  induction active using ancestors_induction (h := h) generalizing v with
  | step active ih =>
    rw [printFrom_eq_none_iff]
    rcases exists_last_exit hr with rfl | ⟨u, ⟨hpart, hu⟩, hne, hrest⟩
    · exact .inl hlong
    · obtain ⟨a, ha⟩ := exists_address_of_part hpart
      obtain rfl := eq_ref_of_address? ha
      have hn : a ∉ active := fun hm => hv a hm rfl
      -- behind the last exit the way does not come back to `a`, which is now being shown
      refine .inr ⟨a, ha, hn, u, hpart, ih a (lt_size_of_view ha) hn ?_ ?_⟩
      · simpa using ⟨hne, hu⟩
      · refine ReflTransGen.mono (fun x y hxy => ⟨hxy.1.1, ?_⟩) _ _ hrest
        simpa using ⟨hxy.2, hxy.1.2⟩

/-- **What cannot be shown**: exactly what holds an integer that is too long, at whatever depth and
behind whatever cycle. -/
theorem print?_eq_none_iff : h.print? v = none ↔ h.HoldsLong v := by
  constructor
  · exact holdsLong_of_printFrom
  · rintro ⟨w, hr, hlong⟩
    refine printFrom_of_reaches (fun a ha => absurd ha List.not_mem_nil) ?_ hlong
    exact ReflTransGen.mono
      (fun x y hxy => ⟨hxy, fun a ha => absurd ha List.not_mem_nil⟩) _ _ hr

end Heap

end Sidebar.Raw
