/-!
# Blank characters

Two classes of blanks are in use. Template text is trimmed and collapsed by the property
`White_Space` of Unicode (`Text.isBlank`). Inside tags of the markup language only space, tab,
line feed and carriage return separate (`Text.isXmlBlank`).

## Main definitions

* `MarkupTemplate.Text.isBlank`, `MarkupTemplate.Text.isXmlBlank` — the two classes.
* `MarkupTemplate.Text.trim` — a text without the blanks at its two ends.
* `MarkupTemplate.Text.collapse` — every run of blanks becomes one space.
* `MarkupTemplate.Text.collapseEdges` — the first and the last run become one space each.
-/

namespace MarkupTemplate.Text

/-- The Unicode property `White_Space`. -/
def isBlank (c : Char) : Bool :=
  let n := c.toNat
  (9 ≤ n && n ≤ 13) || n == 32 || n == 0x85 || n == 0xA0 || n == 0x1680 ||
    (0x2000 ≤ n && n ≤ 0x200A) || n == 0x2028 || n == 0x2029 || n == 0x202F || n == 0x205F ||
    n == 0x3000

/-- Space, tab, line feed and carriage return. -/
def isXmlBlank (c : Char) : Bool := c == ' ' || c == '\t' || c == '\n' || c == '\r'

/-- Every separator of the markup language is blank. -/
theorem isBlank_of_isXmlBlank {c : Char} (h : isXmlBlank c = true) : isBlank c = true := by
  simp only [isXmlBlank, Bool.or_eq_true, beq_iff_eq] at h
  rcases h with ((rfl | rfl) | rfl) | rfl <;> decide

/-- Drops the characters of a class from the end of a text. -/
def dropWhileEnd (p : Char → Bool) (cs : List Char) : List Char :=
  (cs.reverse.dropWhile p).reverse

/-- The text without the blanks at its two ends. -/
def trim (cs : List Char) : List Char := dropWhileEnd isBlank (cs.dropWhile isBlank)

/-- Reads on after a blank (`afterBlank`) or after another character, writing one space for each
run of blanks. -/
def collapseFrom : (afterBlank : Bool) → List Char → List Char
  | _, [] => []
  | afterBlank, c :: cs =>
    if isBlank c then
      if afterBlank then collapseFrom true cs else ' ' :: collapseFrom true cs
    else c :: collapseFrom false cs

/-- The text with one space for every run of blanks. -/
def collapse (cs : List Char) : List Char := collapseFrom false cs

/-- The text with one space for the blanks before its first and one for the blanks after its last
other character; blanks in between stay. A blank text becomes one space. -/
def collapseEdges (cs : List Char) : List Char :=
  match trim cs with
  | [] => [' ']
  | core =>
    (if cs.head?.any isBlank then [' '] else []) ++ core ++
      (if cs.getLast?.any isBlank then [' '] else [])

end MarkupTemplate.Text
