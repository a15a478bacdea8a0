/-!
# Shortest decimals

A finite binary number stands for an interval of reals, those that round to it. Its shortest
decimal is the one with the fewest digits in that interval, and of these the nearest to the
number itself; of two equally near ones it is the greater.

The interval is kept in whole numbers over one denominator. On the grid of the multiples of a
power of ten only the two neighbours of the number have to be tried, since a grid that meets the
interval meets it in one of them.

## Main definitions

* `MarkupTemplate.Decimal.Interval` — a number with the reals that round to it.
* `MarkupTemplate.Decimal.Interval.neighbour?` — the nearest grid point in the interval.
* `MarkupTemplate.Decimal.Interval.shortest` — the shortest decimal.
-/

namespace MarkupTemplate.Decimal

/-- The decimal `digits · 10 ^ exponent`. -/
structure Scaled where
  digits : Nat
  exponent : Int
  deriving DecidableEq, Repr

/-- A positive number `value / unit` with the bounds `low / unit` and `high / unit` of the reals
that round to it. The bounds themselves round to it if `closed`. -/
structure Interval where
  low : Nat
  value : Nat
  high : Nat
  unit : Nat
  closed : Bool
  deriving DecidableEq, Repr

namespace Interval

/-- The interval of `mantissa · 2 ^ exponent` among neighbours that differ in the mantissa by one.
Below a power of two the next number is only half as far (`narrow`). Ties go to even mantissas. -/
def ofBinary (mantissa : Nat) (exponent : Int) (narrow : Bool) : Interval :=
  let scale := Nat.pow 2 (exponent - 2).toNat
  { low := (4 * mantissa - if narrow then 1 else 2) * scale
    value := 4 * mantissa * scale
    high := (4 * mantissa + 2) * scale
    unit := Nat.pow 2 (2 - exponent).toNat
    closed := mantissa % 2 == 0 }

/-- The number of decimal digits. -/
def digitCount (n : Nat) : Nat := (Nat.toDigits 10 n).length

/-- The `e` for which the number lies between `10 ^ e` and `10 ^ (e + 1)`. -/
def leadingExponent (r : Interval) : Int :=
  if r.unit ≤ r.value then digitCount (r.value / r.unit) - 1
  else -digitCount ((r.unit - 1) / r.value)

/-- Of the two multiples of `10 ^ k` next to the number, the nearer one that lies in the interval;
the upper one on a tie. -/
def neighbour? (r : Interval) (k : Int) : Option Nat :=
  let up := Nat.pow 10 (-k).toNat
  let step := r.unit * Nat.pow 10 k.toNat
  let inside (n : Nat) : Bool :=
    if r.closed then r.low * up ≤ n * step && n * step ≤ r.high * up
    else r.low * up < n * step && n * step < r.high * up
  let below := r.value * up / step
  let excess := r.value * up % step
  match inside below, inside (below + 1) with
  | true, true => if 2 * excess < step then some below else some (below + 1)
  | true, false => some below
  | false, true => some (below + 1)
  | false, false => none

/-- The decimal with the fewest digits in the interval. Seventeen digits are always enough. -/
def shortest (r : Interval) : Scaled :=
  let e := r.leadingExponent
  let hit? (n : Nat) : Option Scaled :=
    let k := e - n
    (r.neighbour? k).map fun d => ⟨d, k⟩
  ((List.range 17).findSome? hit?).getD ⟨r.value, 0⟩

end Interval

end MarkupTemplate.Decimal
