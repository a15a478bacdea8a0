import MarkupTemplate.Template.Tree
import MarkupTemplate.Text.Numeral
import MarkupTemplate.Text.Split

/-!
# Markers

A slot of a template is carried through the markup as a marker: a number in decimal digits
between three opening and three closing square brackets. Every occurrence of a marker in a text is
read as a reference, whatever brackets stand around it. A number of 64 bits or more makes no
marker.

## Main definitions

* `MarkupTemplate.marker` — the marker of a slot.
* `MarkupTemplate.Segment` — a stretch of literal text or a reference.
* `MarkupTemplate.decodeMarkers` — the segments of a text.
-/

namespace MarkupTemplate

open Text

/-- The marker of the slot `index`. -/
def marker (index : Nat) : List Char :=
  ['[', '[', '['] ++ Nat.toDigits 10 index ++ [']', ']', ']']

/-- A stretch of text between markers, or the number of a marker. -/
inductive Segment where
  | text (content : List Char)
  | reference (index : Nat)
  deriving DecidableEq, Repr

/-- The segment as a piece of an attribute value. -/
def Segment.part : Segment → Part
  | text content => .text (String.ofList content)
  | reference index => .reference index

/-- The segment as a node of a template. -/
def Segment.tree {ω ο : Type} : Segment → Tree ω ο
  | text content => .text (String.ofList content)
  | reference index => .reference index

/-- Whether a character is a decimal digit. -/
def isDigit (c : Char) : Bool := '0' ≤ c && c ≤ '9'

/-- The number of the marker at the start of a text, and what follows it. -/
def marker? (cs : List Char) : Option (Nat × List Char) :=
  match dropPrefix? ['[', '[', '['] cs with
  | none => none
  | some ds =>
    match dropPrefix? [']', ']', ']'] (ds.dropWhile isDigit),
      Numeral.read 10 Numeral.word64 (ds.takeWhile isDigit) with
    | some rest, .ok index => some (index, rest)
    | _, _ => none

/-- What follows a marker is shorter than the text that begins with it. -/
theorem length_lt_of_marker? {cs rest : List Char} {index : Nat}
    (h : marker? cs = some (index, rest)) : rest.length < cs.length := by
  rw [marker?] at h
  split at h
  · cases h
  · rename_i ds hd
    split at h
    · rename_i r _ hr _
      cases h
      have h₁ := congrArg List.length (dropPrefix?_eq_some_iff.mp hd)
      have h₂ := length_le_of_dropPrefix? hr
      have h₃ := length_dropWhile_le isDigit ds
      simp only [List.length_append, List.length_cons, List.length_nil] at h₁
      omega
    · cases h

/-- Puts a literal character in front of the segments of a text. -/
def consLiteral (c : Char) : List Segment → List Segment
  | .text content :: segments => .text (c :: content) :: segments
  | segments => .text [c] :: segments

/-- The segments of a text, without empty ones. -/
def decodeMarkers : List Char → List Segment
  | [] => []
  | c :: cs =>
    match _h : marker? (c :: cs) with
    | some (index, rest) => .reference index :: decodeMarkers rest
    | none => consLiteral c (decodeMarkers cs)
termination_by cs => cs.length
decreasing_by
  · exact length_lt_of_marker? _h
  · simp

end MarkupTemplate
