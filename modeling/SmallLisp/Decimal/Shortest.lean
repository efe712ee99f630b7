import SmallLisp.Decimal.Digits

set_option autoImplicit false

/-! # The shortest decimal of a double

A finite double stands for `mantissa · 2 ^ exponent`, and every real number closer to it
than to its neighbours rounds to it. Among the decimals in that interval the printed one
has the fewest digits and, of those, is the nearest to the double.

All comparisons are exact: a decimal `c · 10 ^ e` and a multiple of a power of two are
brought to a common unit as natural numbers, so nothing here depends on floating point.
-/

namespace SmallLisp.Decimal

/-- A nonnegative decimal `coefficient · 10 ^ exponent`. -/
structure Scaled where
  coefficient : Nat
  exponent : Int
deriving DecidableEq, Repr

/-- **The reals that round to a double.** The double is `4 · mantissa` units of
`2 ^ (exponent - 2)`; in the same units the interval runs from `low` to `high`. A mantissa
that is even keeps the ends of its interval, an odd one does not. -/
structure Rounding where
  mantissa : Nat
  exponent : Int
  low : Nat
  high : Nat
deriving DecidableEq, Repr

/-- The rounding interval of the double with the given exponent and fraction fields. The
gap below a power of two is half the gap above it, except at the bottom of the range. -/
def Rounding.ofFields (exponentField fraction : Nat) : Rounding :=
  if exponentField = 0 then
    ⟨fraction, -1074, 4 * fraction - 2, 4 * fraction + 2⟩
  else
    let mantissa := Nat.pow 2 52 + fraction
    let below := if fraction = 0 ∧ 1 < exponentField then 1 else 2
    ⟨mantissa, (exponentField : Int) - 1075, 4 * mantissa - below, 4 * mantissa + 2⟩

namespace Rounding

/-- Units of the double's grid, in the common unit with the decimal grid of exponent `e`. -/
def inUnits (r : Rounding) (e : Int) (quarters : Nat) : Nat :=
  quarters * Nat.pow 2 (r.exponent - 2).toNat * Nat.pow 10 (-e).toNat

/-- One step of the decimal grid of exponent `e`, in the common unit. -/
def gridStep (r : Rounding) (e : Int) : Nat :=
  Nat.pow 10 e.toNat * Nat.pow 2 (2 - r.exponent).toNat

/-- Whether the decimal `c · 10 ^ e` rounds to the double. -/
def accepts (r : Rounding) (e : Int) (c : Nat) : Bool :=
  let x := c * r.gridStep e
  let low := r.inUnits e r.low
  let high := r.inUnits e r.high
  if r.mantissa % 2 = 0 then decide (low ≤ x ∧ x ≤ high) else decide (low < x ∧ x < high)

/-- The exponent of the leading decimal digit of a positive double. -/
def leadingExponent (r : Rounding) : Int :=
  let numerator := r.inUnits 0 (4 * r.mantissa)
  let denominator := r.gridStep 0
  if denominator ≤ numerator then
    (digits (numerator / denominator)).length - 1
  else
    -((digits (denominator / numerator)).length : Int)

/-- The multiple of `10 ^ e` chosen for the double, if one of its two neighbours on that
grid rounds to it. When both do, the nearer one is taken and a tie goes up. -/
def nearest? (r : Rounding) (e : Int) : Option Nat :=
  let x := r.inUnits e (4 * r.mantissa)
  let step := r.gridStep e
  let below := x / step
  let down := r.accepts e below
  let up := r.accepts e (below + 1)
  if down && up then
    some (if x - below * step < (below + 1) * step - x then below else below + 1)
  else if down then some below
  else if up then some (below + 1)
  else none

/-- Tries the grids of exponent `e`, `e - 1`, … and stops at the first with a hit. Seventeen
digits always suffice for a double, so the last grid is only a formality. -/
def search (r : Rounding) : Nat → Int → Scaled
  | 0, e => ⟨r.inUnits e (4 * r.mantissa) / r.gridStep e, e⟩
  | tries + 1, e =>
      match r.nearest? e with
      | some c => ⟨c, e⟩
      | none => r.search tries (e - 1)

end Rounding

/-- Moves trailing zeros of the coefficient into the exponent. -/
def Scaled.trim (coefficient : Nat) (exponent : Int) : Scaled :=
  if coefficient ≠ 0 ∧ coefficient % 10 = 0 then
    Scaled.trim (coefficient / 10) (exponent + 1)
  else
    ⟨coefficient, exponent⟩
termination_by coefficient
decreasing_by omega

/-- The parts of a double that its text shows. -/
inductive Magnitude
  | notANumber
  | infinite
  | finite (decimal : Scaled)
deriving DecidableEq, Repr

/-- Whether the sign bit of a double is set; true of `-0.0`. -/
def isNegative (x : Float) : Bool := x.toBits.toNat / Nat.pow 2 63 % 2 = 1

/-- **The shortest decimal of a double**, its sign left aside. -/
def magnitude (x : Float) : Magnitude :=
  let bits := x.toBits.toNat
  let exponentField := bits / Nat.pow 2 52 % Nat.pow 2 11
  let fraction := bits % Nat.pow 2 52
  if exponentField = 2047 then
    if fraction = 0 then .infinite else .notANumber
  else if exponentField = 0 ∧ fraction = 0 then
    .finite ⟨0, 0⟩
  else
    let r := Rounding.ofFields exponentField fraction
    let hit := r.search 17 r.leadingExponent
    .finite (Scaled.trim hit.coefficient hit.exponent)

end SmallLisp.Decimal
