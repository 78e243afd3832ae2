import Sidebar.Text.Basic

/-!
# Sidebar.Number.Binary64: floating-point numbers as exact integers

A 64-bit floating-point number is a sign, a mantissa below `2 ^ 53` and a power of two from
`2 ^ -1074` on, or an infinity, or the one value that is no number.  Decimal notation is rounded
to the nearest of them, a tie to the even mantissa, in exact arithmetic.  Main statement: rounding
a quotient is off by at most half a unit (`roundDiv_spec`).
-/

namespace Sidebar

/-- A 64-bit floating-point number; `finite negative m q` is `m * 2 ^ q` with its sign. -/
inductive Binary64
  | nan
  | infinite (negative : Bool)
  | finite (negative : Bool) (mantissa : Nat) (exponent : Int)
deriving DecidableEq

/-- The nearest integer to `num / den`; of two equally near ones the even one. -/
def roundDiv (num den : Nat) : Nat :=
  let low := num / den
  let rest := 2 * (num % den)
  if rest < den ∨ (rest = den ∧ low % 2 = 0) then low else low + 1

/-- Rounding is off by at most half a unit, and by half a unit only toward an even number. -/
theorem roundDiv_spec (num : Nat) {den : Nat} (h : 0 < den) :
    2 * num ≤ (2 * roundDiv num den + 1) * den ∧ 2 * roundDiv num den * den ≤ 2 * num + den := by
  have hlt := Nat.mod_lt num h
  have hdiv := Nat.div_add_mod num den
  have e1 : (2 * (num / den) + 1) * den = 2 * (den * (num / den)) + den := by
    rw [Nat.add_mul, Nat.one_mul, Nat.mul_assoc, Nat.mul_comm (num / den) den]
  have e2 : 2 * (num / den) * den = 2 * (den * (num / den)) := by
    rw [Nat.mul_assoc, Nat.mul_comm (num / den) den]
  have e3 : (2 * (num / den + 1) + 1) * den = 2 * (den * (num / den)) + 3 * den := by
    rw [Nat.mul_add, Nat.add_mul, Nat.add_mul, Nat.mul_assoc, Nat.mul_comm (num / den) den]
    omega
  have e4 : 2 * (num / den + 1) * den = 2 * (den * (num / den)) + 2 * den := by
    rw [Nat.mul_add, Nat.add_mul, Nat.mul_assoc, Nat.mul_comm (num / den) den]
  unfold roundDiv
  dsimp only
  split
  · next hr => rw [e1, e2]; omega
  · next hr => rw [e3, e4]; omega

namespace Binary64

/-- The least exponent, that of the numbers next to zero. -/
def leastExponent : Int := -1074

/-- The greatest exponent of a finite number. -/
def greatestExponent : Int := 971

/-- `num / den`, times `2 ^ (-q)`, as a quotient. -/
def scaled (num den : Nat) (q : Int) : Nat × Nat :=
  if 0 ≤ q then (num, den * Nat.pow 2 q.toNat) else (num * Nat.pow 2 (-q).toNat, den)

/-- The number nearest to the positive quotient `num / den`. -/
def ofQuotient (negative : Bool) (num den : Nat) : Binary64 :=
  let q := max ((num.log2 : Int) - den.log2 - 53) leastExponent
  let q := if Nat.pow 2 53 ≤ (scaled num den q).1 / (scaled num den q).2 then q + 1 else q
  let m := roundDiv (scaled num den q).1 (scaled num den q).2
  let (m, q) := if m = Nat.pow 2 53 then (Nat.pow 2 52, q + 1) else (m, q)
  if greatestExponent < q then infinite negative else finite negative m q

/-- The number nearest to `n * 10 ^ e`.  What is far beyond the greatest number is infinite and
what is far below the least one is zero, without the powers being worked out. -/
def ofDecimal (negative : Bool) (n : Nat) (e : Int) : Binary64 :=
  let size : Int := (Text.ofNat n).length + e
  if n = 0 ∨ size < -400 then finite negative 0 leastExponent
  else if 400 < size then infinite negative
  else if 0 ≤ e then ofQuotient negative (n * Nat.pow 10 e.toNat) 1
  else ofQuotient negative n (Nat.pow 10 (-e).toNat)

/-- The integer that the number is. -/
def toInt? : Binary64 → Option Int
  | nan => none
  | infinite _ => none
  | finite negative m q =>
    let signed (n : Nat) : Int := if negative then -n else n
    if 0 ≤ q then some (signed (m * Nat.pow 2 q.toNat))
    else if m % Nat.pow 2 (-q).toNat = 0 then some (signed (m / Nat.pow 2 (-q).toNat))
    else none

/-- A number without an integer value is not finite or has places behind the point. -/
def isFinite : Binary64 → Bool
  | finite .. => true
  | _ => false

example : ofDecimal false 1 (-1) = finite false 0x1999999999999A (-56) := by decide +kernel
example : ofDecimal false 5 (-324) = finite false 1 (-1074) := by decide +kernel
example : ofDecimal false 17976931348623157 292 = finite false (2 ^ 53 - 1) 971 := by
  decide +kernel
example : ofDecimal false 9007199254740993 0 = finite false (2 ^ 52) 1 := by decide +kernel

end Binary64

end Sidebar
