import Sidebar.Text.Utf8

/-!
# Sidebar.Proofs.Encoding: which bytes are UTF-8

`Utf8.encode` writes characters one after the other.  Main statement: bytes are decoded exactly when
they are written in this way, and then to the characters that were written (`decode_eq_ok_iff`).
-/

namespace Sidebar.Utf8

/-- The bytes of characters. -/
def encode (cs : List Char) : List UInt8 := cs.flatMap String.utf8EncodeChar

/-! ## Following bytes -/

theorem following_zero_iff {low high : UInt8} {bits v : Nat} {s r : List UInt8} :
    following 0 low high bits s = .ok (v, r) ↔ bits = v ∧ s = r := by
  simp [following]

theorem following_succ_iff {n : Nat} {low high : UInt8} {bits v : Nat} {s r : List UInt8} :
    following (n + 1) low high bits s = .ok (v, r) ↔
      ∃ b t, s = b :: t ∧ low.toNat ≤ b.toNat ∧ b.toNat ≤ high.toNat ∧
        following n 0x80 0xBF (bits * 64 + (b.toNat - 0x80)) t = .ok (v, r) := by
  cases s with
  | nil => simp [following]
  | cons b t =>
    rw [following]
    constructor
    · intro h
      split at h
      · next hb =>
        split at h
        · next done hd =>
          obtain rfl := Except.ok.inj h
          exact ⟨b, t, rfl, UInt8.le_iff_toNat_le.1 hb.1, UInt8.le_iff_toNat_le.1 hb.2, hd⟩
        · cases h
      · cases h
    · rintro ⟨b', t', hs, hlow, hhigh, hd⟩
      obtain ⟨rfl, rfl⟩ := List.cons.inj hs
      rw [if_pos ⟨UInt8.le_iff_toNat_le.2 hlow, UInt8.le_iff_toNat_le.2 hhigh⟩, hd]

/-! ## One character -/

theorem utf8EncodeChar_eq (c : Char) : String.utf8EncodeChar c = bytesOf c.toNat := rfl

theorem toNat_byte {n : Nat} (h : n < 256) : (UInt8.ofNat n).toNat = n := by
  rw [UInt8.toNat_ofNat']
  omega

theorem byte_eq {n : Nat} {b : UInt8} (h : n = b.toNat) : UInt8.ofNat n = b := by
  rw [h, UInt8.ofNat_toNat]

theorem bytesOf_one {v : Nat} {b : UInt8} (hv : v ≤ 0x7F) (h : v = b.toNat) : bytesOf v = [b] := by
  rw [bytesOf, if_pos hv, byte_eq h]

theorem bytesOf_two {v : Nat} {b b1 : UInt8} (hv : 0x7F < v ∧ v ≤ 0x7FF)
    (h : v / 64 % 32 + 192 = b.toNat) (h1 : v % 64 + 128 = b1.toNat) : bytesOf v = [b, b1] := by
  rw [bytesOf, if_neg (by omega), if_pos hv.2, byte_eq h, byte_eq h1]

theorem bytesOf_three {v : Nat} {b b1 b2 : UInt8} (hv : 0x7FF < v ∧ v ≤ 0xFFFF)
    (h : v / 4096 % 16 + 224 = b.toNat) (h1 : v / 64 % 64 + 128 = b1.toNat)
    (h2 : v % 64 + 128 = b2.toNat) : bytesOf v = [b, b1, b2] := by
  rw [bytesOf, if_neg (by omega), if_neg (by omega), if_pos hv.2, byte_eq h, byte_eq h1, byte_eq h2]

theorem bytesOf_four {v : Nat} {b b1 b2 b3 : UInt8} (hv : 0xFFFF < v)
    (h : v / 262144 % 8 + 240 = b.toNat) (h1 : v / 4096 % 64 + 128 = b1.toNat)
    (h2 : v / 64 % 64 + 128 = b2.toNat) (h3 : v % 64 + 128 = b3.toNat) :
    bytesOf v = [b, b1, b2, b3] := by
  rw [bytesOf, if_neg (by omega), if_neg (by omega), if_neg (by omega), byte_eq h, byte_eq h1,
    byte_eq h2, byte_eq h3]

theorem char?_of_lt {b : UInt8} (hb : b.toNat < 0x80) (s : List UInt8) :
    char? (b :: s) = some (b.toNat, s) := by
  rw [char?, if_pos (UInt8.lt_iff_toNat_lt.2 hb)]

/-- What the first of several bytes says, by its number. -/
theorem char?_of_ge {b : UInt8} (hb : 0x80 ≤ b.toNat) {s : List UInt8} {v : Nat} {r : List UInt8} :
    char? (b :: s) = some (v, r) ↔
      0xC2 ≤ b.toNat ∧ b.toNat < 0xE0 ∧ following 1 0x80 0xBF (b.toNat - 0xC0) s = .ok (v, r) ∨
      0xE0 ≤ b.toNat ∧ b.toNat < 0xF0 ∧
        following 2 (if b.toNat = 0xE0 then 0xA0 else 0x80) (if b.toNat = 0xED then 0x9F else 0xBF)
          (b.toNat - 0xE0) s = .ok (v, r) ∨
      0xF0 ≤ b.toNat ∧ b.toNat < 0xF5 ∧
        following 3 (if b.toNat = 0xF0 then 0x90 else 0x80) (if b.toNat = 0xF4 then 0x8F else 0xBF)
          (b.toNat - 0xF0) s = .ok (v, r) := by
  have toOption_iff : ∀ e : Except (Nat × Fault) (Nat × List UInt8),
      e.toOption = some (v, r) ↔ e = .ok (v, r) := fun e => by cases e <;> simp [Except.toOption]
  have hn : ¬ b < 0x80 := by
    rw [UInt8.lt_iff_toNat_lt]
    show ¬ b.toNat < 128
    omega
  rw [char?, if_neg hn]
  unfold lead?
  simp only [UInt8.lt_iff_toNat_lt, ← UInt8.toNat_inj, UInt8.reduceToNat]
  split
  · simp
    omega
  split
  · next h1 h2 =>
    have h3 : ¬ 0xE0 ≤ b.toNat ∧ ¬ 0xF0 ≤ b.toNat := by omega
    simp [toOption_iff, Nat.le_of_not_lt h1, h2, h3]
  split
  · next h1 h2 =>
    have h3 : ¬ b.toNat < 0xE0 ∧ ¬ 0xF0 ≤ b.toNat := by omega
    simp [toOption_iff, Nat.le_of_not_lt h1, h2, h3]
  split
  · next h1 h2 =>
    have h3 : ¬ b.toNat < 0xE0 ∧ ¬ b.toNat < 0xF0 := by omega
    simp [toOption_iff, Nat.le_of_not_lt h1, h2, h3]
  · simp
    omega

/-- What is read as a character is what the character is written as. -/
theorem isValidChar_of_char? {s : List UInt8} {v : Nat} {r : List UInt8}
    (h : char? s = some (v, r)) : v.isValidChar ∧ s = bytesOf v ++ r := by
  cases s with
  | nil => simp [char?] at h
  | cons b s =>
    have hb := b.toNat_lt
    by_cases hlt : b.toNat < 0x80
    · simp only [char?_of_lt hlt, Option.some.injEq, Prod.mk.injEq] at h
      obtain ⟨rfl, rfl⟩ := h
      refine ⟨.inl (by omega), ?_⟩
      rw [bytesOf_one (by omega) rfl]
      rfl
    · rw [char?_of_ge (by omega)] at h
      simp only [following_succ_iff, following_zero_iff, apply_ite UInt8.toNat,
        UInt8.reduceToNat] at h
      rcases h with ⟨h1, h2, b1, t1, rfl, l1, u1, rfl, rfl⟩ |
        ⟨h1, h2, b1, t1, rfl, l1, u1, b2, t2, rfl, l2, u2, rfl, rfl⟩ |
        ⟨h1, h2, b1, t1, rfl, l1, u1, b2, t2, rfl, l2, u2, b3, t3, rfl, l3, u3, rfl, rfl⟩
      · refine ⟨.inl (by omega), ?_⟩
        rw [@bytesOf_two _ b b1 (by omega) (by omega) (by omega)]
        rfl
      · have low : 0x80 ≤ b1.toNat ∧ (b.toNat = 0xE0 → 0xA0 ≤ b1.toNat) := by
          split at l1 <;> omega
        have high : b1.toNat ≤ 0xBF ∧ (b.toNat = 0xED → b1.toNat ≤ 0x9F) := by
          split at u1 <;> omega
        refine ⟨?_, ?_⟩
        · unfold Nat.isValidChar
          omega
        · rw [@bytesOf_three _ b b1 b2 (by omega) (by omega) (by omega) (by omega)]
          rfl
      · have low : 0x80 ≤ b1.toNat ∧ (b.toNat = 0xF0 → 0x90 ≤ b1.toNat) := by
          split at l1 <;> omega
        have high : b1.toNat ≤ 0xBF ∧ (b.toNat = 0xF4 → b1.toNat ≤ 0x8F) := by
          split at u1 <;> omega
        refine ⟨?_, ?_⟩
        · unfold Nat.isValidChar
          omega
        · rw [@bytesOf_four _ b b1 b2 b3 (by omega) (by omega) (by omega) (by omega) (by omega)]
          rfl

/-- A character is read from what it is written as, whatever follows. -/
theorem char?_bytesOf {v : Nat} (hv : v.isValidChar) (r : List UInt8) :
    char? (bytesOf v ++ r) = some (v, r) := by
  unfold Nat.isValidChar at hv
  rcases (by omega : v ≤ 0x7F ∨ 0x7F < v ∧ v ≤ 0x7FF ∨ 0x7FF < v ∧ v ≤ 0xFFFF ∨ 0xFFFF < v)
    with h | h | h | h
  · have hb := toNat_byte (show v < 256 by omega)
    rw [bytesOf_one h hb.symm, List.singleton_append, char?_of_lt (by omega), hb]
  · have hb := toNat_byte (show v / 64 % 32 + 192 < 256 by omega)
    have hb1 := toNat_byte (show v % 64 + 128 < 256 by omega)
    rw [bytesOf_two h hb.symm hb1.symm, List.cons_append, char?_of_ge (by omega)]
    simp only [following_succ_iff, following_zero_iff, hb, UInt8.reduceToNat]
    exact .inl ⟨by omega, by omega, _, _, rfl, by omega, by omega, by omega, rfl⟩
  · have hb := toNat_byte (show v / 4096 % 16 + 224 < 256 by omega)
    have hb1 := toNat_byte (show v / 64 % 64 + 128 < 256 by omega)
    have hb2 := toNat_byte (show v % 64 + 128 < 256 by omega)
    rw [bytesOf_three h hb.symm hb1.symm hb2.symm, List.cons_append, char?_of_ge (by omega)]
    simp only [following_succ_iff, following_zero_iff, hb, apply_ite UInt8.toNat,
      UInt8.reduceToNat]
    exact .inr (.inl ⟨by omega, by omega, _, _, rfl, by split <;> omega, by split <;> omega,
      _, _, rfl, by omega, by omega, by omega, rfl⟩)
  · have hb := toNat_byte (show v / 262144 % 8 + 240 < 256 by omega)
    have hb1 := toNat_byte (show v / 4096 % 64 + 128 < 256 by omega)
    have hb2 := toNat_byte (show v / 64 % 64 + 128 < 256 by omega)
    have hb3 := toNat_byte (show v % 64 + 128 < 256 by omega)
    rw [bytesOf_four h hb.symm hb1.symm hb2.symm hb3.symm, List.cons_append,
      char?_of_ge (by omega)]
    simp only [following_succ_iff, following_zero_iff, hb, apply_ite UInt8.toNat,
      UInt8.reduceToNat]
    exact .inr (.inr ⟨by omega, by omega, _, _, rfl, by split <;> omega, by split <;> omega,
      _, _, rfl, by omega, by omega, _, _, rfl, by omega, by omega, by omega, rfl⟩)

/-! ## Texts -/

theorem encode_cons (c : Char) (cs : List Char) :
    encode (c :: cs) = bytesOf c.toNat ++ encode cs := by
  rw [encode, List.flatMap_cons, utf8EncodeChar_eq, encode]

theorem toNat_ofNat {v : Nat} (hv : v.isValidChar) : (Char.ofNat v).toNat = v := by
  rw [Char.ofNat, dif_pos hv]
  rfl

theorem char?_encode_cons (c : Char) (cs : List Char) :
    char? (encode (c :: cs)) = some (c.toNat, encode cs) :=
  char?_bytesOf c.valid _

theorem decodeFrom_of_char? {s : List UInt8} {v : Nat} {r : List UInt8}
    (h : char? s = some (v, r)) (start : Nat) :
    ∃ next, decodeFrom start s = (Char.ofNat v :: ·) <$> decodeFrom next r := by
  cases s with
  | nil => simp [char?] at h
  | cons b s =>
    rw [char?] at h
    rw [decodeFrom]
    split at h
    · next hb =>
      simp only [Option.some.injEq, Prod.mk.injEq] at h
      exact ⟨_, by rw [if_pos hb, h.1, h.2]⟩
    · next hb =>
      obtain ⟨lead, hl, hf⟩ := Option.bind_eq_some_iff.1 h
      rw [if_neg hb, hl]
      refine ⟨start + 1 + lead.following, ?_⟩
      dsimp only
      split
      · next he => simp [he, Except.toOption] at hf
      · next he =>
        simp only [he, Except.toOption, Option.some.injEq, Prod.mk.injEq] at hf
        rw [hf.1, hf.2]

theorem decodeFrom_of_no_char {b : UInt8} {s : List UInt8} (h : char? (b :: s) = none)
    (start : Nat) : ∃ e, decodeFrom start (b :: s) = .error e := by
  rw [char?] at h
  rw [decodeFrom]
  split at h
  · cases h
  · next hb =>
    rw [if_neg hb]
    split
    · exact ⟨_, rfl⟩
    · next lead hl =>
      rw [hl, Option.bind_some] at h
      split
      · exact ⟨_, rfl⟩
      · next he => simp [he, Except.toOption] at h

theorem exists_char_of_decodeFrom {start : Nat} {b : UInt8} {s : List UInt8} {cs : List Char}
    (h : decodeFrom start (b :: s) = .ok cs) :
    ∃ v r next cs', char? (b :: s) = some (v, r) ∧ decodeFrom next r = .ok cs' ∧
      cs = Char.ofNat v :: cs' := by
  cases hc : char? (b :: s) with
  | none =>
    obtain ⟨e, he⟩ := decodeFrom_of_no_char hc start
    rw [he] at h
    cases h
  | some read =>
    obtain ⟨next, hn⟩ := decodeFrom_of_char? hc start
    rw [hn] at h
    cases hd : decodeFrom next read.2 with
    | error e =>
      rw [hd] at h
      cases h
    | ok cs' =>
      rw [hd] at h
      exact ⟨read.1, read.2, next, cs', rfl, hd, (Except.ok.inj h).symm⟩

theorem decodeFrom_encode (start : Nat) (cs : List Char) :
    decodeFrom start (encode cs) = .ok cs := by
  induction cs generalizing start with
  | nil => rw [encode, List.flatMap_nil, decodeFrom]
  | cons c cs ih =>
    obtain ⟨next, hn⟩ := decodeFrom_of_char? (char?_encode_cons c cs) start
    rw [hn, ih next, Char.ofNat_toNat]
    rfl

theorem eq_encode_of_decodeFrom {start : Nat} {s : List UInt8} {cs : List Char}
    (h : decodeFrom start s = .ok cs) : s = encode cs := by
  induction cs generalizing start s with
  | nil =>
    cases s with
    | nil => rfl
    | cons b s =>
      obtain ⟨_, _, _, _, _, _, hcs⟩ := exists_char_of_decodeFrom h
      cases hcs
  | cons c cs ih =>
    cases s with
    | nil =>
      rw [decodeFrom] at h
      cases h
    | cons b s =>
      obtain ⟨v, r, next, cs', hc, hd, hcs⟩ := exists_char_of_decodeFrom h
      obtain ⟨rfl, rfl⟩ := List.cons.inj hcs
      obtain ⟨hv, hs⟩ := isValidChar_of_char? hc
      rw [hs, encode_cons, toNat_ofNat hv, ih hd]

/-- Bytes are decoded exactly when they are written as characters one after the other, and then to
these characters. -/
theorem decode_eq_ok_iff {s : List UInt8} {cs : List Char} : decode s = .ok cs ↔ s = encode cs :=
  ⟨eq_encode_of_decodeFrom, fun h => h ▸ decodeFrom_encode 0 cs⟩

end Sidebar.Utf8
