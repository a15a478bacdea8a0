import MarkupTemplate.Dom.Node
import MarkupTemplate.Dom.Void
import MarkupTemplate.Markup.Lexeme

/-!
# Forests of nodes

A stream of tokens becomes a list of nodes by matching end tags with start tags through their
local names. Adjacent texts, references and CDATA sections form one text node, and empty texts
form none. In the lenient mode void elements take no end tag: their start tags have no content,
and their end tags are passed over.

Every start tag that is no empty-element tag allows for one end tag, in the lenient mode too. An
end tag beyond that number is refused before it is compared with what is open.

## Main definitions

* `MarkupTemplate.Markup.Mode` — strict or lenient.
* `MarkupTemplate.Markup.Builder` — the nodes read so far, with the open elements.
* `MarkupTemplate.Markup.Builder.step` — the effect of one token.
* `MarkupTemplate.Markup.parse` — the forest that a text describes.
-/

namespace MarkupTemplate.Markup

open Dom Text

/-- Whether void elements may do without an end tag. -/
inductive Mode where
  | strict
  | lenient
  deriving DecidableEq, Repr

/-- Whether elements of this name have no end tag. -/
def Mode.isVoid : Mode → String → Bool
  | .strict, _ => false
  | .lenient, name => Dom.isVoid name

/-- An element whose end tag has not come yet. -/
structure OpenElement where
  name : String
  attrs : KeyedList String String
  /-- The children read so far, the last first. -/
  children : List Node

/-- The state of reading a forest. -/
structure Builder where
  /-- The complete nodes outside all open elements, the last first. -/
  roots : List Node
  /-- The open elements, the innermost first. -/
  opened : List OpenElement
  /-- The text since the last node or tag, its last character first. -/
  pending : List Char
  /-- How many more end tags may come than start tags. -/
  allowance : Nat

/-- The name without the part before its first colon. -/
def localName (name : List Char) : String := String.ofList (afterFirst ':' name)

/-- The element, once its end tag has come. -/
def OpenElement.node (e : OpenElement) : Node := .element e.name e.attrs e.children.reverse

namespace Builder

/-- Nothing read yet. -/
def empty : Builder := ⟨[], [], [], 0⟩

/-- Adds a complete node to the innermost open element. -/
def add (n : Node) (b : Builder) : Builder :=
  match b.opened with
  | [] => { b with roots := n :: b.roots }
  | e :: es => { b with opened := { e with children := n :: e.children } :: es }

/-- The text since the last node or tag. -/
def text (b : Builder) : List Char := b.pending.reverse

/-- Adds to the pending text. -/
def addText (text : List Char) (b : Builder) : Builder :=
  { b with pending := text.reverse ++ b.pending }

@[simp] theorem text_addText (text : List Char) (b : Builder) :
    (b.addText text).text = b.text ++ text := by
  simp [Builder.text, addText]

/-- Makes the pending text a node, unless it is empty. -/
def flush (b : Builder) : Builder :=
  match b.text with
  | [] => b
  | text => { b.add (.text (String.ofList text)) with pending := [] }

/-- Adds a node behind the pending text. -/
def push (n : Node) (b : Builder) : Builder := b.flush.add n

/-- Opens an element behind the pending text. -/
def openElement (name : String) (attrs : KeyedList String String) (b : Builder) : Builder :=
  { b.flush with opened := ⟨name, attrs, []⟩ :: b.flush.opened }

/-- Closes the innermost open element, which has to have this name. -/
def close (name : String) (b : Builder) : Except ParseError Builder :=
  match b.flush.opened with
  | [] => .error (.unexpectedEndTag name)
  | e :: es =>
    if e.name = name then .ok ({ b.flush with opened := es }.add e.node)
    else .error (.mismatchedEndTag e.name name)

/-- The names and values of attributes as strings. -/
def attributes (attrs : List (List Char × List Char)) : KeyedList String String :=
  attrs.map fun (key, value) => (String.ofList key, String.ofList value)

/-- The node of an instruction. Its target runs to the first blank. -/
def instruction (content : List Char) : Node :=
  .instruction (String.ofList (content.takeWhile (! isBlank ·)))
    (String.ofList (trim (content.dropWhile (! isBlank ·))))

/-- The effect of an end tag. -/
def endTag (mode : Mode) (name : List Char) (b : Builder) : Except ParseError Builder :=
  match b.allowance with
  | 0 => .error (.unexpectedEndTag (String.ofList (afterLast ':' name)))
  | allowance + 1 =>
    if mode.isVoid (localName name) then .ok { b with allowance }
    else { b with allowance }.close (localName name)

/-- The effect of one token. -/
def step (mode : Mode) (b : Builder) : Token → Except ParseError Builder
  | .startTag name attrs =>
    let b := { b with allowance := b.allowance + 1 }
    if mode.isVoid (localName name) then
      .ok (b.push (.element (localName name) (attributes attrs) []))
    else .ok (b.openElement (localName name) (attributes attrs))
  | .emptyTag name attrs => .ok (b.push (.element (localName name) (attributes attrs) []))
  | .endTag name => b.endTag mode name
  | .text content => .ok (b.addText content)
  | .reference body => .ok (b.addText (resolveInText body))
  | .cdata content => .ok (b.addText content)
  | .comment content => .ok (b.push (.comment (String.ofList content)))
  | .doctype content => .ok (b.push (.doctype (String.ofList (trim content))))
  | .instruction content => .ok (b.push (instruction content))
  | .declaration _ => .ok b

/-- The effect of a list of tokens. -/
def run (mode : Mode) (b : Builder) : List Token → Except ParseError Builder
  | [] => .ok b
  | t :: ts => (b.step mode t).bind fun b => b.run mode ts

/-- The forest, if nothing is open. -/
def finish (b : Builder) : Except ParseError (List Node) :=
  match b.flush.opened with
  | [] => .ok b.flush.roots.reverse
  | e :: _ => .error (.unclosedTag e.name)

end Builder

/-- The text without a byte-order mark at its start. -/
def dropByteOrderMark (cs : List Char) : List Char := (dropPrefix? ['\uFEFF'] cs).getD cs

/-- The forest that a list of characters describes. Of a fault and a tag out of place, the one
that comes first counts. -/
def parseChars (mode : Mode) (cs : List Char) : Except ParseError (List Node) := do
  let whole := dropByteOrderMark cs
  let (ts, stop?) := tokens whole
  let b ← Builder.empty.run mode ts
  match stop? with
  | some stop => .error (.malformed (stop.position whole) stop.fault)
  | none => b.finish

/-- The forest that a text describes. -/
def parse (mode : Mode) (markup : String) : Except ParseError (List Node) :=
  parseChars mode markup.toList

end MarkupTemplate.Markup
