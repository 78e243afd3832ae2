import Sidebar.Json.Basic

/-!
# Sidebar.Json.Literal: string and number literals

A string literal may hold any character but a control character, and escapes; two escapes that
form a surrogate pair are one code point, and a surrogate by itself stays as it is.  Each reader
returns what is left of its input with a proof of how long that is.
-/

namespace Sidebar.Json

/-- What is left of `s` when `n` characters at least are read. -/
abbrev Left (s : List Char) (n : Nat) : Type := { r : List Char // r.length + n ≤ s.length }

/-! ### Strings -/

/-- The value of a hexadecimal digit. -/
def hexValue? (c : Char) : Option Nat :=
  if '0' ≤ c ∧ c ≤ '9' then some (c.toNat - 48)
  else if 'a' ≤ c ∧ c ≤ 'f' then some (c.toNat - 87)
  else if 'A' ≤ c ∧ c ≤ 'F' then some (c.toNat - 55)
  else none

/-- The value of four hexadecimal digits. -/
def hexQuad? (a b c d : Char) : Option Nat := do
  let w ← hexValue? a
  let x ← hexValue? b
  let y ← hexValue? c
  let z ← hexValue? d
  pure (((w * 16 + x) * 16 + y) * 16 + z)

/-- The character that a backslash and `c` stand for. -/
def escape? (c : Char) : Option Char :=
  match c with
  | '"' => some '"'
  | '\\' => some '\\'
  | '/' => some '/'
  | 'b' => some '\x08'
  | 'f' => some '\x0C'
  | 'n' => some '\n'
  | 'r' => some '\r'
  | 't' => some '\t'
  | _ => none

/-- The code point of a surrogate pair. -/
def pair (high low : Nat) : CodePoint :=
  CodePoint.ofNat (0x10000 + (high - 0xD800) * 0x400 + (low - 0xDC00))

/-- The second half of a surrogate pair, if the text goes on with an escape of one.  As in the
single escape, one character at least has to follow the digits. -/
def lowHalf? (s : List Char) : Except Failure (Option Nat) :=
  match s with
  | '\\' :: 'u' :: a :: b :: c :: d :: _ :: r =>
    match hexQuad? a b c d with
    | none => .error (.fault .unicodeEscape (r.length + 6))
    | some n => .ok (if 0xDC00 ≤ n ∧ n ≤ 0xDFFF then some n else none)
  | _ => .ok none

/-- Reads a string literal behind its opening quote; `opening` characters were left with it. -/
def string (opening : Nat) (s : List Char) : Except Failure (Text × Left s 1) :=
  match s with
  | [] => .error (.fault .unterminatedString opening)
  | '"' :: r => .ok ([], ⟨r, by simp⟩)
  | '\\' :: 'u' :: a :: b :: c :: d :: r =>
    match hexQuad? a b c d, r.isEmpty with
    | _, true => .error (.fault .unicodeEscape 5)
    | none, false => .error (.fault .unicodeEscape (r.length + 5))
    | some n, false =>
      match if 0xD800 ≤ n ∧ n ≤ 0xDBFF then lowHalf? r else .ok none with
      | .error failure => .error failure
      | .ok (some low) =>
        match string opening (r.drop 6) with
        | .error failure => .error failure
        | .ok (t, ⟨left, h⟩) =>
          .ok (pair n low :: t, ⟨left, by simp only [List.length_drop] at h; simp; omega⟩)
      | .ok none =>
        match string opening r with
        | .error failure => .error failure
        | .ok (t, ⟨left, h⟩) => .ok (CodePoint.ofNat n :: t, ⟨left, by simp; omega⟩)
  | '\\' :: 'u' :: r => .error (.fault .unicodeEscape (r.length + 1))
  | ['\\'] => .error (.fault .unterminatedString opening)
  | '\\' :: e :: r =>
    match escape? e with
    | none => .error (.fault .escape (r.length + 2))
    | some c =>
      match string opening r with
      | .error failure => .error failure
      | .ok (t, ⟨left, h⟩) => .ok (CodePoint.ofChar c :: t, ⟨left, by simp; omega⟩)
  | c :: r =>
    if c.toNat < 0x20 then .error (.fault .controlCharacter (r.length + 1))
    else
      match string opening r with
      | .error failure => .error failure
      | .ok (t, ⟨left, h⟩) => .ok (CodePoint.ofChar c :: t, ⟨left, by simp; omega⟩)
termination_by s.length

/-! ### Numbers -/

/-- The digits at the start of a text, and the rest. -/
def digits (s : List Char) : List Char × List Char :=
  (s.takeWhile Char.isDigit, s.dropWhile Char.isDigit)

theorem length_digits (s : List Char) : (digits s).1.length + (digits s).2.length = s.length := by
  rw [digits, ← List.length_append, List.takeWhile_append_dropWhile]

/-- The number that digits write. -/
def valueOf (ds : List Char) : Nat := ds.foldl (fun n d => n * 10 + (d.toNat - 48)) 0

/-- The digits before the point: a zero alone, or digits of which the first is not zero. -/
def wholePart? (s : List Char) : Option (List Char × List Char) :=
  match s with
  | '0' :: r => some (['0'], r)
  | c :: _ => if c.isDigit then some (digits s) else none
  | [] => none

/-- The digits behind a point, if there are any. -/
def fractionPart (s : List Char) : List Char × List Char :=
  match s with
  | '.' :: r => if (digits r).1 = [] then ([], s) else digits r
  | _ => ([], s)

/-- The exponent behind an `e`, if digits follow. -/
def exponentPart (s : List Char) : Option Int × List Char :=
  match s with
  | e :: r =>
    if e = 'e' ∨ e = 'E' then
      let negative := r.head? = some '-'
      let unsigned := if negative ∨ r.head? = some '+' then r.tail else r
      if (digits unsigned).1 = [] then (none, s)
      else
        let n : Int := valueOf (digits unsigned).1
        (some (if negative then -n else n), (digits unsigned).2)
    else (none, s)
  | [] => (none, s)

theorem length_wholePart {s ds r : List Char} (h : wholePart? s = some (ds, r)) :
    r.length + 1 ≤ s.length := by
  unfold wholePart? at h
  split at h
  · simp_all
  · next c r' _ =>
    split at h
    · next hc =>
      have := length_digits (c :: r')
      rw [Option.some.inj h] at this
      have hd : ds = c :: r'.takeWhile Char.isDigit := by
        have := congrArg Prod.fst (Option.some.inj h)
        simpa [digits, hc, eq_comm] using this
      simp [hd] at this ⊢
      omega
    · simp at h
  · simp at h

theorem length_fractionPart (s : List Char) : (fractionPart s).2.length ≤ s.length := by
  unfold fractionPart
  split
  · next r =>
    have := length_digits r
    split <;> simp; omega
  · simp

theorem length_exponentPart (s : List Char) : (exponentPart s).2.length ≤ s.length := by
  unfold exponentPart
  split
  · next e r =>
    split
    · dsimp only
      generalize hu : (if r.head? = some '-' ∨ r.head? = some '+' then r.tail else r) = u
      have hle : u.length ≤ r.length := by
        rw [← hu]
        split <;> simp
      have h := length_digits u
      split
      · simp
      · simp only [List.length_cons]; omega
    · simp
  · simp

/-- Reads a number without its sign.  Without a point and an exponent it is an integer, and one
of more digits than `limit` is refused. -/
def number? (limit : Option Nat) (negative : Bool) (s : List Char) :
    Option (Except Failure (Json × Left s 1)) :=
  match hw : wholePart? s with
  | none => none
  | some (whole, r) =>
    have h : (exponentPart (fractionPart r).2).2.length + 1 ≤ s.length := by
      have h1 := length_wholePart hw
      have h2 := length_fractionPart r
      have h3 := length_exponentPart (fractionPart r).2
      omega
    let fraction := fractionPart r
    let exponent := exponentPart fraction.2
    if fraction.1 = [] ∧ exponent.1 = none then
      if limit.any (· < whole.length) then some (.error (.longInteger whole.length))
      else
        let n : Int := valueOf whole
        some (.ok (.int (if negative then -n else n), ⟨exponent.2, h⟩))
    else
      let scale : Int := exponent.1.getD 0 - fraction.1.length
      some (.ok (.float (Binary64.ofDecimal negative (valueOf (whole ++ fraction.1)) scale),
        ⟨exponent.2, h⟩))

end Sidebar.Json
