import Sidebar.Text.Quoted

/-!
# Sidebar.Text.Utf8: reading bytes as characters

Decoding of UTF-8 with the position of the first fault, the bytes of single characters, the number
of bytes that a text takes, and the reduction of line ends to line feeds.
-/

namespace Sidebar.Utf8

/-- Why bytes are no UTF-8. -/
inductive Fault
  /-- No character starts with the byte. -/
  | invalidStart
  /-- A byte inside a character is not one that may follow. -/
  | invalidContinuation
  /-- The bytes end inside a character. -/
  | unexpectedEnd
deriving DecidableEq

/-- The bytes `start`, ..., `start + size - 1` are at fault; `first` is the first of them. -/
structure DecodeError where
  first : UInt8
  start : Nat
  size : Nat
  fault : Fault
deriving DecidableEq

/-- What the first byte of a character of several bytes says. -/
structure Lead where
  /-- How many bytes follow. -/
  following : Nat
  /-- The bounds of the next byte; those after it are between `0x80` and `0xBF`. -/
  low : UInt8
  high : UInt8
  /-- The bits that the first byte carries. -/
  bits : Nat

/-- The first bytes of characters of two, three and four bytes.  The bounds of the next byte shut
out overlong forms, surrogates and what lies beyond `U+10FFFF`. -/
def lead? (b : UInt8) : Option Lead :=
  if b < 0xC2 then none
  else if b < 0xE0 then some ⟨1, 0x80, 0xBF, b.toNat - 0xC0⟩
  else if b < 0xF0 then
    some ⟨2, if b = 0xE0 then 0xA0 else 0x80, if b = 0xED then 0x9F else 0xBF, b.toNat - 0xE0⟩
  else if b < 0xF5 then
    some ⟨3, if b = 0xF0 then 0x90 else 0x80, if b = 0xF4 then 0x8F else 0xBF, b.toNat - 0xF0⟩
  else none

/-- Reads `n` following bytes onto `bits`; a failure tells how many of them were right. -/
def following : Nat → UInt8 → UInt8 → Nat → List UInt8 → Except (Nat × Fault) (Nat × List UInt8)
  | 0, _, _, bits, r => .ok (bits, r)
  | _ + 1, _, _, _, [] => .error (0, .unexpectedEnd)
  | n + 1, low, high, bits, b :: r =>
    if low ≤ b ∧ b ≤ high then
      match following n 0x80 0xBF (bits * 64 + (b.toNat - 0x80)) r with
      | .ok done => .ok done
      | .error (k, fault) => .error (k + 1, fault)
    else .error (0, .invalidContinuation)

theorem length_of_following {n : Nat} {low high : UInt8} {bits : Nat} {s : List UInt8}
    {v : Nat} {r : List UInt8} (h : following n low high bits s = .ok (v, r)) :
    r.length ≤ s.length := by
  induction n generalizing low high bits s with
  | zero => simp only [following, Except.ok.injEq, Prod.mk.injEq] at h; simp [h.2]
  | succ n ih =>
    cases s with
    | nil => simp [following] at h
    | cons b s =>
      rw [following] at h
      split at h
      · split at h
        · next done hd =>
          cases h
          have := ih hd
          simp; omega
        · simp at h
      · simp at h

/-- The characters of bytes that stand behind `start` others. -/
def decodeFrom (start : Nat) (s : List UInt8) : Except DecodeError (List Char) :=
  match s with
  | [] => .ok []
  | b :: s =>
    if b < 0x80 then (Char.ofNat b.toNat :: ·) <$> decodeFrom (start + 1) s
    else
      match lead? b with
      | none => .error ⟨b, start, 1, .invalidStart⟩
      | some lead =>
        match h : following lead.following lead.low lead.high lead.bits s with
        | .error (k, fault) => .error ⟨b, start, k + 1, fault⟩
        | .ok (v, r) =>
          have := length_of_following h
          (Char.ofNat v :: ·) <$> decodeFrom (start + 1 + lead.following) r
termination_by s.length

/-- The characters that bytes encode. -/
def decode (s : List UInt8) : Except DecodeError (List Char) := decodeFrom 0 s

/-- The wording of a decoding error. -/
def DecodeError.message (e : DecodeError) : Text :=
  let place : Text :=
    if e.size = 1 then
      "byte 0x" ++ Text.hex 2 e.first.toNat ++ " in position " ++ Text.ofNat e.start
    else
      "bytes in position " ++ Text.ofNat e.start ++ "-" ++ Text.ofNat (e.start + e.size - 1)
  let why : Text :=
    match e.fault with
    | .invalidStart => "invalid start byte"
    | .invalidContinuation => "invalid continuation byte"
    | .unexpectedEnd => "unexpected end of data"
  "'utf-8' codec can't decode " ++ place ++ ": " ++ why

/-! ### Single characters -/

/-- The number of the character that bytes start with, and what is left of them. -/
def char? : List UInt8 → Option (Nat × List UInt8)
  | [] => none
  | b :: s =>
    if b < 0x80 then some (b.toNat, s)
    else (lead? b).bind fun lead =>
      (following lead.following lead.low lead.high lead.bits s).toOption

/-- The bytes of the character with a number. -/
def bytesOf (v : Nat) : List UInt8 :=
  if v ≤ 0x7F then [.ofNat v]
  else if v ≤ 0x7FF then [.ofNat (v / 64 % 32 + 192), .ofNat (v % 64 + 128)]
  else if v ≤ 0xFFFF then
    [.ofNat (v / 4096 % 16 + 224), .ofNat (v / 64 % 64 + 128), .ofNat (v % 64 + 128)]
  else
    [.ofNat (v / 262144 % 8 + 240), .ofNat (v / 4096 % 64 + 128), .ofNat (v / 64 % 64 + 128),
      .ofNat (v % 64 + 128)]

theorem length_of_char? {b : UInt8} {s : List UInt8} {v : Nat} {r : List UInt8}
    (h : char? (b :: s) = some (v, r)) : r.length ≤ s.length := by
  rw [char?] at h
  split at h
  · simp only [Option.some.injEq, Prod.mk.injEq] at h
    simp [h.2]
  · obtain ⟨lead, -, hf⟩ := Option.bind_eq_some_iff.1 h
    cases hd : following lead.following lead.low lead.high lead.bits s with
    | error e =>
      rw [hd] at hf
      cases hf
    | ok done =>
      rw [hd] at hf
      obtain rfl := Option.some.inj hf
      exact length_of_following hd

/-! ### Sizes -/

/-- A surrogate from `U+DC80` to `U+DCFF`, which stands for one byte that could not be decoded. -/
def isEscape (c : CodePoint) : Bool := 0xDC80 ≤ c.toNat && c.toNat ≤ 0xDCFF

/-- How many bytes a code point takes. -/
def width (c : CodePoint) : Nat :=
  if c.toNat < 0x80 then 1
  else if c.toNat < 0x800 then 2
  else if isEscape c then 1
  else if c.toNat < 0x10000 then 3
  else 4

/-- How many bytes a text takes. -/
def size (t : Text) : Nat := t.foldr (fun c n => width c + n) 0

theorem one_le_width (c : CodePoint) : 1 ≤ width c := by
  unfold width
  repeat' split
  all_goals omega

theorem length_le_size (t : Text) : t.length ≤ size t := by
  induction t with
  | nil => exact Nat.le_refl 0
  | cons c t ih =>
    have hw := one_le_width c
    show t.length + 1 ≤ width c + size t
    omega

/-- Every line end, `\r\n`, `\r` or `\n`, becomes a line feed. -/
def unifyLineEnds : List Char → List Char
  | [] => []
  | '\r' :: '\n' :: r => '\n' :: unifyLineEnds r
  | '\r' :: r => '\n' :: unifyLineEnds r
  | c :: r => c :: unifyLineEnds r

theorem carriageReturn_notMem_unifyLineEnds (s : List Char) : '\r' ∉ unifyLineEnds s := by
  fun_induction unifyLineEnds s with
  | case1 => simp
  | case2 r ih => simpa using ih
  | case3 r _ ih => simpa using ih
  | case4 c r _ hc ih => simpa using ⟨fun h => hc h.symm, ih⟩

end Sidebar.Utf8
