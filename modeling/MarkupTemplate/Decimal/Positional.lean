import MarkupTemplate.Decimal.Shortest

/-!
# Numbers written out in full

A floating-point number is written with the digits of its shortest decimal, always positionally:
zeros fill the places between the digits and the point, and nothing is written after the point
of a whole number. Zero keeps its sign.

## Main definitions

* `MarkupTemplate.Decimal.Scaled.positional` — a decimal without exponent notation.
* `MarkupTemplate.Decimal.ofFloat` — the text of a floating-point number.
-/

namespace MarkupTemplate.Decimal

/-- The decimal with a point, without trailing zeros after it. -/
def Scaled.positional (d : Scaled) : List Char :=
  let ds := Nat.toDigits 10 d.digits ++ List.replicate d.exponent.toNat '0'
  let places := (-d.exponent).toNat
  let ds := List.replicate (places + 1 - ds.length) '0' ++ ds
  let whole := ds.take (ds.length - places)
  let fraction := ((ds.drop (ds.length - places)).reverse.dropWhile (· == '0')).reverse
  if fraction.isEmpty then whole else whole ++ '.' :: fraction

/-- The text of a number without its sign, from the fields of its binary representation. -/
def ofFields (biased fraction : Nat) : List Char :=
  if biased = 2047 then (if fraction = 0 then ['i', 'n', 'f'] else ['N', 'a', 'N'])
  else if biased = 0 then
    if fraction = 0 then ['0']
    else (Interval.ofBinary fraction (-1074) false).shortest.positional
  else
    (Interval.ofBinary (fraction + Nat.pow 2 52) ((biased : Int) - 1075)
      (fraction == 0 && biased != 1)).shortest.positional

/-- The text of a number from its 64 bits: a sign bit, eleven bits of exponent and 52 bits of
fraction. What is not a number has no sign. -/
def ofBits (bits : Nat) : String :=
  let body := ofFields (bits / Nat.pow 2 52 % Nat.pow 2 11) (bits % Nat.pow 2 52)
  if bits / Nat.pow 2 63 % 2 = 1 ∧ body ≠ ['N', 'a', 'N'] then String.ofList ('-' :: body)
  else String.ofList body

/-- The text of a floating-point number. -/
def ofFloat (x : Float) : String := ofBits x.toBits.toNat

end MarkupTemplate.Decimal
