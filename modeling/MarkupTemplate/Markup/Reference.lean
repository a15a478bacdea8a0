import MarkupTemplate.Markup.Fault
import MarkupTemplate.Text.Split

/-!
# References to characters

A reference names a character between `&` and `;`, by one of five names or by a number. In text
a reference that names none stands for itself. In an attribute value it is a fault, and so are
a sign before the number, the null character and an upper-case mark of hexadecimal numbers.

## Main definitions

* `MarkupTemplate.Markup.resolveInText` — what a reference in text stands for.
* `MarkupTemplate.Markup.characterOfNumber` — the character that a number in a value names.
* `MarkupTemplate.Markup.unescape` — an attribute value with its references resolved.
-/

namespace MarkupTemplate.Markup

open Text

/-- The characters that have a name. -/
def named? (name : List Char) : Option Char :=
  if name = ['l', 't'] then some '<'
  else if name = ['g', 't'] then some '>'
  else if name = ['a', 'm', 'p'] then some '&'
  else if name = ['a', 'p', 'o', 's'] then some '\''
  else if name = ['q', 'u', 'o', 't'] then some '"'
  else none

/-- The character with a given code point. -/
def scalar? (code : Nat) : Option Char :=
  if code.isValidChar then some (Char.ofNat code) else none

/-- The character that a number in text names, one `+` before the digits allowed. -/
def codeInText? (radix : Nat) (digits : List Char) : Option Char :=
  let digits := match digits with
    | '+' :: ds => ds
    | ds => ds
  match Numeral.read radix Numeral.word32 digits with
  | .ok code => scalar? code
  | .error _ => none

/-- What the reference `&body;` stands for in text. -/
def resolveInText (body : List Char) : List Char :=
  let character? : Option Char :=
    match named? body with
    | some c => some c
    | none =>
      match body with
      | '#' :: 'x' :: digits => codeInText? 16 digits
      | '#' :: 'X' :: digits => codeInText? 16 digits
      | '#' :: digits => codeInText? 10 digits
      | _ => none
  match character? with
  | some c => [c]
  | none => '&' :: body ++ [';']

/-- The code that unsigned digits name. -/
def codeInValue (radix : Nat) (digits : List Char) : Except CharacterFault Nat :=
  match digits with
  | '+' :: _ => .error .signed
  | '-' :: _ => .error .signed
  | _ =>
    match Numeral.read radix Numeral.word32 digits with
    | .ok code => .ok code
    | .error fault => .error (.numeral fault)

/-- The character that the number after `#` names in an attribute value. -/
def characterOfNumber (number : List Char) : Except CharacterFault Char := do
  let code ← match number with
    | 'x' :: digits => codeInValue 16 digits
    | digits => codeInValue 10 digits
  if code = 0 then .error .null
  else
    match scalar? code with
    | some c => .ok c
    | none => .error (.notScalar code)

/-- The character that `body` names in an attribute value of `size` bytes, of which the text
`rest` follows the `&`. -/
def resolveInValue (size : Nat) (body rest : List Char) : Except ReferenceFault Char :=
  match body with
  | '#' :: number =>
    match characterOfNumber number with
    | .ok c => .ok c
    | .error fault => .error (.character fault)
  | _ =>
    match named? body with
    | some c => .ok c
    | none =>
      let start := size - utf8Length rest
      .error (.unknown start (start + utf8Length body) (String.ofList body))

/-- The characters that may stand in a reference in an attribute value. -/
def isValueReference (c : Char) : Bool := c != '&' && c != ';'

/-- The body of a reference and what follows its `;`, from the text behind its `&`. -/
def splitReference? (isBody : Char → Bool) (cs : List Char) : Option (List Char × List Char) :=
  match cs.dropWhile isBody with
  | ';' :: rest => some (cs.takeWhile isBody, rest)
  | _ => none

theorem eq_of_splitReference?_eq_some {isBody : Char → Bool} {cs body rest : List Char}
    (h : splitReference? isBody cs = some (body, rest)) : cs = body ++ ';' :: rest := by
  rw [splitReference?] at h
  split at h
  · rename_i r hr
    obtain ⟨rfl, rfl⟩ := Prod.mk.inj (Option.some.inj h)
    rw [← hr, List.takeWhile_append_dropWhile]
  · simp at h

/-- Resolves the references in the last part of an attribute value of `size` bytes. -/
def unescapeFrom (size : Nat) : List Char → Except ReferenceFault (List Char)
  | [] => .ok []
  | c :: cs =>
    if c = '&' then
      match _h : splitReference? isValueReference cs with
      | some (body, rest) => do
        let character ← resolveInValue size body cs
        let tail ← unescapeFrom size rest
        return character :: tail
      | none => .error (.unterminated (size - utf8Length (c :: cs)) size)
    else do
      let tail ← unescapeFrom size cs
      return c :: tail
termination_by cs => cs.length
decreasing_by
  · simp [eq_of_splitReference?_eq_some _h]; omega
  · simp

/-- The attribute value with its references resolved, from left to right. -/
def unescape (value : List Char) : Except ReferenceFault (List Char) :=
  unescapeFrom (utf8Length value) value

end MarkupTemplate.Markup
