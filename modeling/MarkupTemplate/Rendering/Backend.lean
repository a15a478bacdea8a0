import MarkupTemplate.Markup.Forest
import MarkupTemplate.Template.ElementMarkup
import MarkupTemplate.Template.Value

/-!
# Backends

Rendering needs four operations on its output. The text backend writes markup and escapes
nothing. The node backend builds document nodes; it reads the literal markup of a template
leniently, and what cannot be read stays a text.

## Main definitions

* `MarkupTemplate.Backend` — the four operations.
* `MarkupTemplate.Backend.text`, `MarkupTemplate.Backend.dom` — the two backends.
-/

namespace MarkupTemplate

open Dom

/-- How outputs of type `ο` are made. -/
structure Backend (ο : Type) where
  /-- Literal markup of a template. -/
  static : String → ο
  /-- A substituted value. -/
  value : Value → ο
  /-- An element around the joined output of its children. -/
  element : String → List (String × String) → ο → ο
  /-- The outputs of siblings. -/
  join : List ο → ο

namespace Backend

/-- Output as markup. -/
def text : Backend String where
  static markup := markup
  value v := v.text
  element := elementMarkup
  join := String.join

/-- The node of literal markup: the single node that it describes, or a fragment of several. -/
def nodeOfMarkup (markup : String) : Node :=
  match Markup.parse .lenient markup with
  | .ok [n] => n
  | .ok ns => .ofList ns
  | .error _ => .text markup

/-- The node of a value. -/
def nodeOfValue : Value → Node
  | .node n => n
  | v => .text v.text

/-- The element with the attributes set one after the other. -/
def nodeOfElement (tag : String) (attrs : List (String × String)) (children : Node) : Node :=
  .element tag (KeyedList.ofPairs attrs) children.flatten

/-- Output as document nodes. -/
def dom : Backend Node where
  static := nodeOfMarkup
  value := nodeOfValue
  element := nodeOfElement
  join := Node.ofList

end Backend

end MarkupTemplate
