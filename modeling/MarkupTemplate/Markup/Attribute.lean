import MarkupTemplate.KeyedList
import MarkupTemplate.Markup.Reference
import MarkupTemplate.Text.Blank

/-!
# Attributes of tags

An attribute is a key, an equals sign and a quoted value. The first character of a key is taken
as it comes, and the key runs on to a blank or an equals sign. Keys are compared whole, and a key
may stand in a tag once. Each value is unescaped before the next attribute is read, so the first
fault from the left is the one reported.

## Main definitions

* `MarkupTemplate.Markup.splitAttribute` — the parts of the next attribute.
* `MarkupTemplate.Markup.readAttributes` — the attributes of a tag.
-/

namespace MarkupTemplate.Markup

open Text

/-- The key and the raw value of an attribute. -/
structure RawAttribute where
  key : List Char
  value : List Char
  deriving DecidableEq, Repr

/-- The characters that may follow the first in a key. -/
def isKey (c : Char) : Bool := c != '=' && !isXmlBlank c

/-- The part of a tag that starts with the value, from what follows a key. -/
def valueOf (size : Nat) (afterKey : List Char) : Except AttributeFault (List Char) :=
  match afterKey.dropWhile isXmlBlank with
  | '=' :: cs => .ok (cs.dropWhile isXmlBlank)
  | cs => .error (.missingEquals (size - utf8Length cs))

/-- The text in quotes at the start of `cs`, and what follows it. -/
def quoted (size : Nat) : List Char → Except AttributeFault (List Char × List Char)
  | [] => .error (.missingValue size)
  | c :: cs =>
    match Quote.ofChar? c with
    | none => .error (.unquotedValue (size - utf8Length (c :: cs)))
    | some quote =>
      match cs.dropWhile (· != quote.char) with
      | [] => .error (.unclosedValue size quote)
      | _ :: rest => .ok (cs.takeWhile (· != quote.char), rest)

/-- The attribute that starts with the character `c`, and what follows it, in a tag of `size`
bytes whose earlier keys are `seen` with their offsets. -/
def splitAttribute (size : Nat) (seen : KeyedList (List Char) Nat) (c : Char) (cs : List Char) :
    Except AttributeFault (RawAttribute × List Char) := do
  let key := c :: cs.takeWhile isKey
  let afterEquals ← valueOf size (cs.dropWhile isKey)
  match seen.get? key with
  | some previous => .error (.duplicate (size - utf8Length (c :: cs)) previous)
  | none =>
    let (value, rest) ← quoted size afterEquals
    return (⟨key, value⟩, rest)

private theorem length_valueOf_le {size : Nat} {cs rest : List Char}
    (h : valueOf size cs = .ok rest) : rest.length ≤ cs.length := by
  rw [valueOf] at h
  split at h
  · rename_i ds hds
    cases h
    have h₁ := length_dropWhile_le isXmlBlank cs
    have h₂ := length_dropWhile_le isXmlBlank ds
    rw [hds, List.length_cons] at h₁
    omega
  · cases h

private theorem length_quoted_le {size : Nat} {cs value rest : List Char}
    (h : quoted size cs = .ok (value, rest)) : rest.length ≤ cs.length := by
  cases cs with
  | nil => cases h
  | cons c cs =>
    rw [quoted] at h
    split at h
    · cases h
    · rename_i quote _
      split at h
      · cases h
      · rename_i d ds hds
        cases h
        have h₁ := length_dropWhile_le (· != quote.char) cs
        rw [hds, List.length_cons] at h₁
        rw [List.length_cons]
        omega

/-- What follows an attribute is no longer than what follows its first character. -/
theorem length_le_of_splitAttribute {size : Nat} {seen : KeyedList (List Char) Nat} {c : Char}
    {cs rest : List Char} {attr : RawAttribute}
    (h : splitAttribute size seen c cs = .ok (attr, rest)) : rest.length ≤ cs.length := by
  simp only [splitAttribute, bind, Except.bind] at h
  split at h
  · cases h
  · rename_i afterEquals hv
    have h₁ := length_valueOf_le hv
    have h₂ := length_dropWhile_le isKey cs
    split at h
    · cases h
    · split at h
      · cases h
      · rename_i p hq
        cases h
        have h₃ := length_quoted_le hq
        omega

/-- The attributes in the last part `cs` of a tag of `size` bytes whose earlier keys are `seen`
with their offsets. -/
def readAttributesFrom (size : Nat) (seen : KeyedList (List Char) Nat) (cs : List Char) :
    Except Fault (List (List Char × List Char)) :=
  match _hc : cs.dropWhile isXmlBlank with
  | [] => .ok []
  | c :: ds =>
    match _hs : splitAttribute size seen c ds with
    | .error fault => .error (.attribute fault)
    | .ok (attr, rest) =>
      match unescape attr.value with
      | .error fault => .error (.reference fault)
      | .ok value => do
        let offset := size - utf8Length (c :: ds)
        let tail ← readAttributesFrom size (seen.put attr.key offset) rest
        return (attr.key, value) :: tail
termination_by cs.length
decreasing_by
  have h₁ := length_dropWhile_le isXmlBlank cs
  have h₂ := length_le_of_splitAttribute _hs
  rw [_hc, List.length_cons] at h₁
  omega

/-- The attributes of a tag of `size` bytes, from what follows its name. -/
def readAttributes (size : Nat) (cs : List Char) : Except Fault (List (List Char × List Char)) :=
  readAttributesFrom size [] cs

end MarkupTemplate.Markup
