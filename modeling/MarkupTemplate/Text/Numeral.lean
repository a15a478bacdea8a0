/-!
# Numerals

Unsigned numbers in a radix up to sixteen, read from their digits with an upper bound. The
digits are taken from left to right, and the first that spoils the number decides how reading
fails: a character that is no digit, or a digit that takes the number past the bound.

## Main definitions

* `MarkupTemplate.Text.Numeral.read` — the number that a text of digits names.
* `MarkupTemplate.Text.Numeral.Fault` — why a text names no number.
-/

namespace MarkupTemplate.Text.Numeral

/-- Why a text is not a numeral. -/
inductive Fault where
  | empty
  | invalidDigit
  | tooLarge
  deriving DecidableEq, Repr

/-- The wording of a fault. -/
def Fault.message : Fault → String
  | .empty => "cannot parse integer from empty string"
  | .invalidDigit => "invalid digit found in string"
  | .tooLarge => "number too large to fit in target type"

/-- The value of an ASCII digit or letter as a digit of `radix`. -/
def digit? (radix : Nat) (c : Char) : Option Nat :=
  let n := c.toNat
  let value :=
    if 48 ≤ n ∧ n ≤ 57 then n - 48
    else if 65 ≤ n ∧ n ≤ 70 then n - 55
    else if 97 ≤ n ∧ n ≤ 102 then n - 87
    else radix
  if value < radix then some value else none

/-- Reads digits after a number `acc` already read, keeping below `bound`. -/
def readFrom (radix bound : Nat) : (acc : Nat) → List Char → Except Fault Nat
  | acc, [] => .ok acc
  | acc, c :: cs =>
    match digit? radix c with
    | none => .error .invalidDigit
    | some d =>
      if acc * radix + d < bound then readFrom radix bound (acc * radix + d) cs
      else .error .tooLarge

/-- The number below `bound` that the digits name. -/
def read (radix bound : Nat) (cs : List Char) : Except Fault Nat :=
  if cs.isEmpty then .error .empty else readFrom radix bound 0 cs

/-- The number of values of a 32-bit word. -/
def word32 : Nat := Nat.pow 2 32

/-- The number of values of a 64-bit word. -/
def word64 : Nat := Nat.pow 2 64

end MarkupTemplate.Text.Numeral
