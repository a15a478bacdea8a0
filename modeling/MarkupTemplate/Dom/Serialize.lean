import MarkupTemplate.Dom.Node
import MarkupTemplate.Dom.Void

/-!
# Writing nodes as markup

Texts and attribute values are escaped, the text of raw-text elements excepted. A void element
without children is written as its start tag alone. In the pretty layout every nested element
starts a line of its own, and so does the end tag of an element with elements among its children.

## Main definitions

* `MarkupTemplate.Dom.Layout` — plain or pretty, with the indentation of one level.
* `MarkupTemplate.Dom.Node.write` — a node at a depth of nesting.
* `MarkupTemplate.Dom.Node.outerHtml`, `MarkupTemplate.Dom.Node.innerHtml` — the plain markup of
  a node and of its children.
-/

namespace MarkupTemplate.Dom

/-- How markup is laid out. -/
structure Layout where
  /-- Whether nested elements start a line. -/
  pretty : Bool
  /-- The indentation of one level. -/
  indent : String
  deriving DecidableEq, Repr

namespace Layout

/-- Without line breaks. -/
def plain : Layout := ⟨false, "  "⟩

/-- With line breaks and two spaces for each level. -/
def indented : Layout := ⟨true, "  "⟩

/-- The line break before a tag at a depth of nesting. -/
def lineBreak (layout : Layout) (depth : Nat) : String :=
  if layout.pretty then "\n" ++ String.join (List.replicate depth layout.indent) else ""

end Layout

/-- A character as it stands in text, and with `quotes` in a quoted attribute value. -/
def escapeChar (quotes : Bool) (c : Char) : List Char :=
  if c = '&' then ['&', 'a', 'm', 'p', ';']
  else if c = '<' then ['&', 'l', 't', ';']
  else if c = '>' then ['&', 'g', 't', ';']
  else if c = '"' ∧ quotes = true then ['&', 'q', 'u', 'o', 't', ';']
  else [c]

/-- The text with the characters of the markup language replaced by references. -/
def escapeText (s : String) : String := String.ofList (s.toList.flatMap (escapeChar false))

/-- The attribute value with markup characters and quotes replaced by references. -/
def escapeAttribute (s : String) : String := String.ofList (s.toList.flatMap (escapeChar true))

/-- One attribute of a start tag. -/
def writeAttribute (attr : String × String) : String :=
  " " ++ attr.1 ++ "=\"" ++ escapeAttribute attr.2 ++ "\""

/-- The start tag of an element. -/
def startTag (name : String) (attrs : List (String × String)) : String :=
  "<" ++ name ++ String.join (attrs.map writeAttribute) ++ ">"

/-- The end tag of an element. -/
def endTag (name : String) : String := "</" ++ name ++ ">"

/-- The start tag of an instruction, its data and its end. -/
def writeInstruction (target data : String) : String :=
  "<?" ++ target ++ (if data = "" then "" else " " ++ data) ++ "?>"

namespace Node

mutual

/-- The markup of a node at a depth of nesting. -/
def write (layout : Layout) (depth : Nat) : Node → String
  | fragment cs => writeAll layout depth cs
  | element name attrs cs =>
    let opening := (if 0 < depth then layout.lineBreak depth else "") ++ startTag name attrs
    if isVoid name && cs.isEmpty then opening
    else
      opening
        ++ (if isRawText name then String.join (cs.filterMap text?)
          else writeAll layout (depth + 1) cs)
        ++ (if cs.any isElement then layout.lineBreak depth else "")
        ++ endTag name
  | text content => escapeText content
  | comment content => "<!--" ++ content ++ "-->"
  | doctype content => "<!DOCTYPE " ++ content ++ ">"
  | instruction target data => writeInstruction target data

/-- The markup of a list of nodes at one depth of nesting. -/
def writeAll (layout : Layout) (depth : Nat) : List Node → String
  | [] => ""
  | n :: ns => write layout depth n ++ writeAll layout depth ns

end

/-- The markup of a node. -/
def outer (layout : Layout) (n : Node) : String := n.write layout 0

/-- The markup of the children of a node, each escaped as text in general is. -/
def inner (layout : Layout) (n : Node) : String := writeAll layout 0 n.children

/-- The plain markup of a node. -/
def outerHtml (n : Node) : String := n.outer .plain

/-- The plain markup of the children of a node. -/
def innerHtml (n : Node) : String := n.inner .plain

end Node

end MarkupTemplate.Dom
