import Sidebar.FileSystem.Name
import Sidebar.Proofs.Encoding

/-!
# Sidebar.Proofs.Names: names that the system takes for the same

* `nameBytes_readName`: bytes that are read as a name are the bytes of that name.
* `listed_eq_listed_iff`: names are listed alike exactly when they have the same bytes.
* `listed_eq_self`: a name without surrogates is listed as it is written.
-/

namespace Sidebar

open Utf8

theorem toNat_ofNat_of_lt {n : Nat} (h : n < 0x110000) : (CodePoint.ofNat n).toNat = n := by
  rw [CodePoint.ofNat, dif_pos h]

theorem isSurrogate_eq_true_iff {c : CodePoint} :
    c.isSurrogate = true ↔ 0xD800 ≤ c.toNat ∧ c.toNat ≤ 0xDFFF := by
  simp [CodePoint.isSurrogate]

theorem isEscape_eq_true_iff {c : CodePoint} :
    isEscape c = true ↔ 0xDC80 ≤ c.toNat ∧ c.toNat ≤ 0xDCFF := by
  simp [isEscape]

theorem isValidChar_of_not_isSurrogate {c : CodePoint} (h : c.isSurrogate = false) :
    c.toNat.isValidChar := by
  have hc := c.isLt
  rw [← Bool.not_eq_true, isSurrogate_eq_true_iff] at h
  unfold Nat.isValidChar
  omega

/-! ## One code point -/

theorem nameBytes_cons_char {c : CodePoint} (h : isEscape c = false) (name : Text) :
    nameBytes (c :: name) = bytesOf c.toNat ++ nameBytes name := by
  rw [nameBytes, List.flatMap_cons, h, if_neg Bool.false_ne_true, nameBytes]

theorem nameBytes_cons_escape (b : UInt8) (hb : 0x80 ≤ b.toNat) (name : Text) :
    nameBytes (escapeOf b :: name) = b :: nameBytes name := by
  have hlt := b.toNat_lt
  have hn : (escapeOf b).toNat = 0xDC00 + b.toNat := toNat_ofNat_of_lt (by omega)
  have he : isEscape (escapeOf b) = true := isEscape_eq_true_iff.2 (by omega)
  rw [nameBytes, List.flatMap_cons, he, if_pos rfl, nameBytes, hn, @byte_eq _ b (by omega)]
  rfl

theorem readName_of_char? {s r : List UInt8} {v : Nat} (h : char? s = some (v, r)) :
    readName s = CodePoint.ofNat v :: readName r := by
  cases s with
  | nil => cases h
  | cons b s =>
    rw [readName]
    split
    · next h' =>
      obtain ⟨rfl, rfl⟩ := Prod.mk.inj (Option.some.inj (h.symm.trans h'))
      rfl
    · next h' => cases h.symm.trans h'

theorem readName_of_no_char {b : UInt8} {s : List UInt8} (h : char? (b :: s) = none) :
    readName (b :: s) = escapeOf b :: readName s := by
  rw [readName]
  split
  · next h' => cases h.symm.trans h'
  · rfl

/-- A byte that begins no character is no ASCII. -/
theorem le_of_no_char {b : UInt8} {s : List UInt8} (h : char? (b :: s) = none) :
    0x80 ≤ b.toNat := by
  refine Nat.le_of_not_lt fun hb => ?_
  rw [char?_of_lt hb] at h
  cases h

/-! ## There and back -/

/-- Bytes that are read as a name are the bytes of that name. -/
theorem nameBytes_readName (s : List UInt8) : nameBytes (readName s) = s := by
  induction hn : s.length using Nat.strongRecOn generalizing s with
  | ind n ih =>
    subst hn
    cases s with
    | nil => rw [readName]; rfl
    | cons b s =>
      cases h : char? (b :: s) with
      | none =>
        rw [readName_of_no_char h, nameBytes_cons_escape b (le_of_no_char h),
          ih s.length (Nat.lt_succ_self _) s rfl]
      | some read =>
        obtain ⟨v, r⟩ := read
        obtain ⟨hv, hs⟩ := isValidChar_of_char? h
        have hn : (CodePoint.ofNat v).toNat = v := toNat_ofNat_of_lt (by
          unfold Nat.isValidChar at hv
          omega)
        have he : isEscape (CodePoint.ofNat v) = false := by
          rw [← Bool.not_eq_true, isEscape_eq_true_iff, hn]
          unfold Nat.isValidChar at hv
          omega
        have hlen : r.length < (b :: s).length := Nat.lt_succ_of_le (length_of_char? h)
        rw [readName_of_char? h, nameBytes_cons_char he, hn, ih r.length hlen r rfl, ← hs]

/-- Names are listed alike exactly when they have the same bytes. -/
theorem listed_eq_listed_iff {name name' : Text} :
    listed name = listed name' ↔ nameBytes name = nameBytes name' := by
  refine ⟨fun h => ?_, fun h => by rw [listed, listed, h]⟩
  have hb := congrArg nameBytes h
  rwa [listed, listed, nameBytes_readName, nameBytes_readName] at hb

/-- A name without surrogates is listed as it is written. -/
theorem listed_eq_self {name : Text} (h : name.hasSurrogate = false) : listed name = name := by
  induction name with
  | nil => rw [listed, nameBytes, List.flatMap_nil, readName]
  | cons c name ih =>
    rw [Text.hasSurrogate, List.any_cons, Bool.or_eq_false_iff] at h
    have hv := isValidChar_of_not_isSurrogate h.1
    have he : isEscape c = false := by
      rw [← Bool.not_eq_true, isEscape_eq_true_iff]
      unfold Nat.isValidChar at hv
      omega
    have hn : CodePoint.ofNat c.toNat = c := by rw [CodePoint.ofNat, dif_pos c.isLt]
    rw [listed, nameBytes_cons_char he, readName_of_char? (char?_bytesOf hv _), hn]
    exact congrArg (c :: ·) (ih h.2)

/-- The size of a name is the number of its bytes. -/
theorem length_nameBytes (name : Text) : (nameBytes name).length = size name := by
  induction name with
  | nil => rfl
  | cons c name ih =>
    have hw : width c =
        (if isEscape c then [UInt8.ofNat (c.toNat - 0xDC00)] else bytesOf c.toNat).length := by
      have he := @isEscape_eq_true_iff c
      unfold width bytesOf
      grind
    rw [nameBytes, List.flatMap_cons, List.length_append, ← hw]
    exact congrArg (width c + ·) ih

end Sidebar
