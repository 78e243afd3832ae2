import Mathlib.Algebra.Group.Nat.Defs
import Sidebar.Json.Reader
import Sidebar.Load
import Sidebar.Proofs.Shown

/-!
# Sidebar.Proofs.Digits: what is read from a document can be shown

A reader of JSON that refuses integers of more than 4300 digits lets none through that is too long
to be shown, so nothing in the heap of a document that it has read holds such an integer.

* `Json.short_of_read?`: the integers of a document.
* `Raw.Heap.not_holdsLong_ofJson`: the values in its heap.
-/

namespace Sidebar

namespace Json

/-- Every integer in the value can be shown. -/
inductive Short : Json → Prop
  | null : Short .null
  | bool (b : Bool) : Short (.bool b)
  | int {n : Int} (hn : n.natAbs < Raw.showLimit) : Short (.int n)
  | float (x : Binary64) : Short (.float x)
  | text (t : Text) : Short (.text t)
  | array {items : List Json} (h : ∀ v ∈ items, Short v) : Short (.array items)
  | object {members : List (Text × Json)} (h : ∀ m ∈ members, Short m.2) : Short (.object members)

/-! ## Numbers -/

theorem valueOf_lt {ds : List Char} (hd : ∀ d ∈ ds, d.isDigit) : valueOf ds < 10 ^ ds.length := by
  suffices h : ∀ n, ds.foldl (fun n d => n * 10 + (d.toNat - 48)) n < (n + 1) * 10 ^ ds.length by
    simpa [valueOf] using h 0
  induction ds with
  | nil => simp
  | cons d ds ih =>
    intro n
    have hnine : d.toNat ≤ 57 := (Char.isDigit_iff_toNat.1 (hd d List.mem_cons_self)).2
    have hrest := ih (fun e he => hd e (List.mem_cons_of_mem _ he)) (n * 10 + (d.toNat - 48))
    rw [List.foldl_cons, List.length_cons, Nat.pow_succ', ← Nat.mul_assoc]
    exact Nat.lt_of_lt_of_le hrest (Nat.mul_le_mul_right _ (by omega))

theorem pow_le_showLimit {n : Nat} (hn : n ≤ digitLimit) : 10 ^ n ≤ Raw.showLimit := by
  unfold digitLimit at hn
  delta Raw.showLimit
  -- the power is too large to be evaluated
  generalize 4300 = limit at hn ⊢
  exact Nat.pow_le_pow_right (by decide) hn

theorem isDigit_of_wholePart? {s ds r : List Char} (h : wholePart? s = some (ds, r)) :
    ∀ d ∈ ds, d.isDigit := by
  unfold wholePart? at h
  split at h
  · obtain ⟨rfl, -⟩ := Prod.mk.inj (Option.some.inj h)
    intro d hd
    obtain rfl := List.mem_singleton.1 hd
    rfl
  · next c r' _ =>
    split at h
    · obtain ⟨rfl, -⟩ := Prod.mk.inj (Option.some.inj h)
      exact List.all_eq_true.1 List.all_takeWhile
    · cases h
  · cases h

theorem short_of_number? {negative : Bool} {s : List Char} {v : Json} {r : Left s 1}
    (h : number? (some digitLimit) negative s = some (.ok (v, r))) : v.Short := by
  unfold number? at h
  split at h
  · cases h
  · next whole rest hw =>
    dsimp only at h
    split at h
    · split at h
      · cases h
      · next hlimit =>
        obtain ⟨rfl, -⟩ := Prod.mk.inj (Except.ok.inj (Option.some.inj h))
        have hle : whole.length ≤ digitLimit := by simpa using hlimit
        have hn : valueOf whole < Raw.showLimit :=
          Nat.lt_of_lt_of_le (valueOf_lt (isDigit_of_wholePart? hw)) (pow_le_showLimit hle)
        refine .int ?_
        split
        · rwa [Int.natAbs_neg]
        · exact hn
    · obtain ⟨rfl, -⟩ := Prod.mk.inj (Except.ok.inj (Option.some.inj h))
      exact .float _

theorem short_of_scalar {s : List Char} {v : Json} {r : Left s 1}
    (h : scalar (some digitLimit) s = .ok (v, r)) : v.Short := by
  have hwords : ∀ w ∈ words, w.2.Short := by
    simp [words, Short.null, Short.bool, Short.float]
  unfold scalar at h
  split at h
  · next w hw =>
    obtain ⟨rfl, -⟩ := Prod.mk.inj (Except.ok.inj h)
    exact hwords w (List.mem_of_find?_eq_some hw)
  · split at h
    · split at h
      · cases h
      · cases h
      · next hn =>
        obtain ⟨rfl, -⟩ := Prod.mk.inj (Except.ok.inj h)
        exact short_of_number? hn
    · cases hn : number? (some digitLimit) false s with
      | none => simp [hn] at h
      | some read =>
        rw [hn, Option.getD_some] at h
        exact short_of_number? (hn.trans (congrArg some h))

/-! ## Values -/

/-- Reading a value at the start of a text lets no long integer through. -/
def ValueShort (s : List Char) : Prop :=
  ∀ v r, value (some digitLimit) s = .ok (v, r) → v.Short

/-- Reading elements lets no long integer through. -/
def ElementsShort (s : List Char) : Prop :=
  ∀ vs r, elements (some digitLimit) s = .ok (vs, r) → ∀ v ∈ vs, v.Short

/-- Reading members lets no long integer through. -/
def MembersShort (s : List Char) : Prop :=
  ∀ ms r, members (some digitLimit) s = .ok (ms, r) → ∀ m ∈ ms, m.2.Short

theorem short_ofMembers {ms : List (Text × Json)} (h : ∀ m ∈ ms, m.2.Short) :
    (ofMembers ms).Short :=
  .object fun m hm => h m (Keyed.mem_of_mem_ofEntries hm)

/-- What is left behind a sign is shorter, also when the gap behind it is skipped. -/
theorem length_skipGap_lt {s r rest : List Char} {c : Char} (hr : r.length ≤ s.length)
    (hg : skipGap r = c :: rest) : (skipGap rest).length < s.length := by
  have hskip := length_skipGap r
  have hrest := length_skipGap rest
  rw [hg, List.length_cons] at hskip
  omega

theorem valueShort_of_shorter {s : List Char}
    (ih : ∀ s' : List Char, s'.length < s.length → ElementsShort s' ∧ MembersShort s') :
    ValueShort s := by
  intro v r h
  unfold value at h
  split at h
  · split at h
    · cases h
    · obtain ⟨rfl, -⟩ := Prod.mk.inj (Except.ok.inj h)
      exact .text _
  · next s =>
    dsimp only at h
    split at h
    · obtain ⟨rfl, -⟩ := Prod.mk.inj (Except.ok.inj h)
      exact .array (by simp)
    · split at h
      · cases h
      · next he =>
        obtain ⟨rfl, -⟩ := Prod.mk.inj (Except.ok.inj h)
        exact .array ((ih _ (Nat.lt_succ_of_le (length_skipGap s))).1 _ _ he)
  · next s =>
    dsimp only at h
    split at h
    · obtain ⟨rfl, -⟩ := Prod.mk.inj (Except.ok.inj h)
      exact .object (by simp)
    · split at h
      · cases h
      · next hm =>
        obtain ⟨rfl, -⟩ := Prod.mk.inj (Except.ok.inj h)
        exact short_ofMembers ((ih _ (Nat.lt_succ_of_le (length_skipGap s))).2 _ _ hm)
  · exact short_of_scalar h

theorem elementsShort_of_shorter {s : List Char} (hv : ValueShort s)
    (ih : ∀ s' : List Char, s'.length < s.length → ElementsShort s') : ElementsShort s := by
  intro vs r h
  unfold elements at h
  split at h
  · cases h
  · next v behind hr he =>
    have hhead := hv _ _ he
    split at h
    · obtain ⟨rfl, -⟩ := Prod.mk.inj (Except.ok.inj h)
      simpa using hhead
    · next left hg =>
      dsimp only at h
      split at h
      · cases h
      · next hrest =>
        obtain ⟨rfl, -⟩ := Prod.mk.inj (Except.ok.inj h)
        have hlt : (skipGap left).length < s.length := length_skipGap_lt (Nat.le_of_succ_le hr) hg
        exact List.forall_mem_cons.2 ⟨hhead, ih _ hlt _ _ hrest⟩
    · cases h

theorem membersShort_of_shorter {s : List Char}
    (ih : ∀ s' : List Char, s'.length < s.length → ValueShort s' ∧ MembersShort s') :
    MembersShort s := by
  intro ms r h
  unfold members at h
  split at h
  · next s =>
    split at h
    · cases h
    · next key behind hb _ =>
      split at h
      · next rest hc =>
        have hrest : (skipGap rest).length < s.length := length_skipGap_lt (by omega) hc
        dsimp only at h
        split at h
        · cases h
        · next v behind' hr he =>
          have hv := (ih _ (Nat.lt_succ_of_lt hrest)).1 _ _ he
          split at h
          · obtain ⟨rfl, -⟩ := Prod.mk.inj (Except.ok.inj h)
            simpa using hv
          · next left hg =>
            have hleft : (skipGap left).length < s.length := length_skipGap_lt (by omega) hg
            split at h
            · cases h
            · next hm =>
              obtain ⟨rfl, -⟩ := Prod.mk.inj (Except.ok.inj h)
              have htail := (ih _ (Nat.lt_succ_of_lt hleft)).2 _ _ hm
              exact List.forall_mem_cons.2 ⟨hv, htail⟩
          · cases h
      · cases h
  · cases h

theorem short_of_reading (s : List Char) : ValueShort s ∧ ElementsShort s ∧ MembersShort s := by
  induction hn : s.length using Nat.strongRecOn generalizing s with
  | ind n ih =>
    have shorter : ∀ s' : List Char, s'.length < s.length →
        ValueShort s' ∧ ElementsShort s' ∧ MembersShort s' :=
      fun s' hs => ih s'.length (hn ▸ hs) s' rfl
    have hv := valueShort_of_shorter fun s' hs => (shorter s' hs).2
    exact ⟨hv, elementsShort_of_shorter hv fun s' hs => (shorter s' hs).2.1,
      membersShort_of_shorter fun s' hs => ⟨(shorter s' hs).1, (shorter s' hs).2.2⟩⟩

/-- **The integers of a document** that is read can be shown. -/
theorem short_of_read? {source : List Char} {v : Json}
    (h : read? (some digitLimit) source = .ok v) : v.Short := by
  unfold read? at h
  split at h
  · cases h
  · split at h
    · cases h
    · next he =>
      split at h
      · obtain rfl := Except.ok.inj h
        exact (short_of_reading _).1 _ _ he
      · cases h

end Json

/-! ## The heap of a document -/

namespace Raw

/-- If the value is an integer, it can be shown. -/
def Value.Short (v : Value) : Prop := ∀ n, v = .int n → n.natAbs < showLimit

namespace Heap

variable {h : Heap} {v w : Value}

/-- The objects hold no integer that is too long to be shown. -/
def Short (h : Heap) : Prop := ∀ o ∈ h.objects, ∀ v ∈ o.values, v.Short

theorem short_empty : empty.Short := fun o ho => absurd ho (Array.not_mem_empty o)

theorem Short.alloc (hh : h.Short) {o : Object} (ho : ∀ v ∈ o.values, v.Short) :
    (h.alloc o).1.Short := by
  intro p hp
  rcases Array.mem_push.1 hp with hp | rfl
  · exact hh p hp
  · exact ho

theorem short_addItems {items : List Json}
    (hadd : ∀ v ∈ items, ∀ h : Heap, h.Short → (h.addJson v).1.Short ∧ (h.addJson v).2.Short)
    (hh : h.Short) : (h.addItems items).1.Short ∧ ∀ v ∈ (h.addItems items).2, v.Short := by
  induction items generalizing h with
  | nil => exact ⟨hh, fun v hv => absurd hv List.not_mem_nil⟩
  | cons item items ih =>
    obtain ⟨hfirst, hv⟩ := hadd item List.mem_cons_self h hh
    obtain ⟨hrest, hvs⟩ := ih (fun v hv => hadd v (List.mem_cons_of_mem _ hv)) hfirst
    exact ⟨hrest, List.forall_mem_cons.2 ⟨hv, hvs⟩⟩

theorem short_addMembers {members : List (Text × Json)}
    (hadd : ∀ m ∈ members, ∀ h : Heap, h.Short → (h.addJson m.2).1.Short ∧ (h.addJson m.2).2.Short)
    (hh : h.Short) :
    (h.addMembers members).1.Short ∧
      ∀ v ∈ (Object.mapping (h.addMembers members).2).values, v.Short := by
  induction members generalizing h with
  | nil => exact ⟨hh, fun v hv => absurd hv List.not_mem_nil⟩
  | cons m members ih =>
    obtain ⟨hfirst, hv⟩ := hadd m List.mem_cons_self h hh
    obtain ⟨hrest, hvs⟩ := ih (fun v hv => hadd v (List.mem_cons_of_mem _ hv)) hfirst
    exact ⟨hrest, List.forall_mem_cons.2 ⟨by simp [Value.Short], List.forall_mem_cons.2 ⟨hv, hvs⟩⟩⟩

theorem short_addJson {j : Json} (hj : j.Short) (hh : h.Short) :
    (h.addJson j).1.Short ∧ (h.addJson j).2.Short := by
  induction hj generalizing h with
  | null => exact ⟨hh, by simp [addJson, Value.Short]⟩
  | bool b => exact ⟨hh, by simp [addJson, Value.Short]⟩
  | int hn =>
    refine ⟨hh, fun m hm => ?_⟩
    obtain rfl := Value.int.inj hm
    exact hn
  | float x => exact ⟨hh, by simp [addJson, Value.Short]⟩
  | text t => exact ⟨hh, by simp [addJson, Value.Short]⟩
  | array _ ih =>
    obtain ⟨hadded, hvs⟩ := short_addItems (fun v hv _ hh => ih v hv hh) hh
    exact ⟨hadded.alloc hvs, by simp [addJson, alloc, Value.Short]⟩
  | object _ ih =>
    obtain ⟨hadded, hvs⟩ := short_addMembers (fun m hm _ hh => ih m hm hh) hh
    exact ⟨hadded.alloc hvs, by simp [addJson, alloc, Value.Short]⟩

theorem Short.not_holdsLong (hh : h.Short) (hv : v.Short) : ¬ h.HoldsLong v := by
  rintro ⟨w, hr, hlong⟩
  have hw : w.Short := by
    rcases hr.cases_tail with rfl | ⟨u, _, hpart⟩
    · exact hv
    · obtain ⟨o, ho, hw⟩ := exists_object_of_part hpart
      exact hh o ho w hw
  cases w with
  | int n => exact absurd (hw n rfl) (Nat.not_lt.2 hlong)
  | ref a =>
    rw [view] at hlong
    split at hlong <;> exact hlong
  | _ => exact hlong

/-- **What is read from a document** holds no integer that is too long to be shown. -/
theorem not_holdsLong_ofJson {j : Json} (hj : j.Short) :
    ¬ (ofJson j).1.HoldsLong (ofJson j).2 :=
  have hshort := short_addJson hj short_empty
  hshort.1.not_holdsLong hshort.2

end Heap

end Raw

end Sidebar
