import Sidebar.Number.Binary64

/-!
# Sidebar.Number.Shortest: the shortest decimal that reads back

The decimal notation of a floating-point number has the fewest digits that are read as that very
number, and of those decimals the nearest one.  Which powers of ten are written out and how an
exponent looks is the matter of a `Layout`.
-/

namespace Sidebar

/-- The decimal `0.d₁d₂…` times `10 ^ point`, with digits `d₁d₂…`. -/
structure Decimal where
  digits : Text
  point : Int
deriving DecidableEq

namespace Binary64

/-- The decimals of `n` digits next to a positive number and inside the interval of the reals that
are read as it: of `m * 2 ^ q`, with `10 ^ (point - 1)` not above it and `10 ^ point` above it. -/
def decimalOfSize? (m : Nat) (q : Int) (point : Int) (n : Nat) : Option Nat :=
  -- one unit is a quarter of the distance to the next number
  let unit := if 2 ≤ q then Nat.pow 2 (q - 2).toNat else 1
  let den := if 2 ≤ q then 1 else Nat.pow 2 (2 - q).toNat
  let shift := (n : Int) - point
  let num := if 0 ≤ shift then unit * Nat.pow 10 shift.toNat else unit
  let den := if 0 ≤ shift then den else den * Nat.pow 10 (-shift).toNat
  let value := 4 * m * num
  let low := (4 * m - if m = Nat.pow 2 52 ∧ leastExponent < q then 1 else 2) * num
  let high := (4 * m + 2) * num
  let inside (d : Nat) : Bool :=
    if m % 2 = 0 then low ≤ d * den && d * den ≤ high else low < d * den && d * den < high
  let d := value / den
  if inside d && inside (d + 1) then some (roundDiv value den)
  else if inside d then some d
  else if inside (d + 1) then some (d + 1)
  else none

/-- How many digits of the positive number `m * 2 ^ q` stand before the decimal point; the number
of zeros behind the point, negated, when it is below one tenth. -/
def pointOf (m : Nat) (q : Int) : Int :=
  let n := if 0 ≤ q then m * Nat.pow 2 q.toNat * Nat.pow 10 400
    else m * Nat.pow 10 400 / Nat.pow 2 (-q).toNat
  (Text.ofNat n).length - 400

/-- The shortest decimal of the positive number `m * 2 ^ q`.  Seventeen digits always suffice. -/
def shortest (m : Nat) (q : Int) : Decimal :=
  let point := pointOf m q
  match (List.range' 1 17).findSome? fun n => (decimalOfSize? m q point n).map (n, ·) with
  | some (n, d) =>
    let digits := Text.ofNat d
    ⟨digits.dropRightWhile (· == CodePoint.ofChar '0'), point + (digits.length - n)⟩
  | none => ⟨Text.ofNat m, point⟩

end Binary64

/-- How decimals are written: positionally when `low < point ≤ high`, with an exponent of at least
`exponentDigits` digits otherwise. -/
structure Layout where
  low : Int
  high : Int
  exponentDigits : Nat

namespace Layout

/-- The notation of a decimal. -/
def render (layout : Layout) (d : Decimal) : Text :=
  let zeros (n : Nat) : Text := List.replicate n (CodePoint.ofChar '0')
  if layout.low < d.point ∧ d.point ≤ layout.high then
    if d.point ≤ 0 then "0." ++ zeros (-d.point).toNat ++ d.digits
    else if d.digits.length ≤ d.point.toNat then
      d.digits ++ zeros (d.point.toNat - d.digits.length) ++ ".0"
    else d.digits.take d.point.toNat ++ "." ++ d.digits.drop d.point.toNat
  else
    let fraction : Text := if d.digits.length ≤ 1 then [] else "." ++ d.digits.drop 1
    let sign : Text := if d.point < 1 then "e-" else "e+"
    let exponent := Text.ofNat (d.point - 1).natAbs
    d.digits.take 1 ++ fraction ++ sign ++
      zeros (layout.exponentDigits - exponent.length) ++ exponent

/-- The notation of a floating-point number. -/
def number (layout : Layout) : Binary64 → Text
  | .nan => "nan"
  | .infinite negative => if negative then "-inf" else "inf"
  | .finite negative m q =>
    let sign : Text := if negative then "-" else []
    if m = 0 then sign ++ "0.0" else sign ++ layout.render (Binary64.shortest m q)

end Layout

end Sidebar
