import MarkupTemplate.Decimal.Positional
import MarkupTemplate.Dom.Serialize

/-!
# Substituted values

The values that fill the slots of a template, and their text. A missing value has the empty text,
a number is written out in full, and a node is written as its markup.

## Main definitions

* `MarkupTemplate.Value`, `MarkupTemplate.Value.text`.
* `MarkupTemplate.Value.ofOption` — a value that may be missing.
-/

namespace MarkupTemplate

/-- A value for a slot. -/
inductive Value where
  | null
  | bool (b : Bool)
  | int (n : Int64)
  | float (x : Float)
  | str (s : String)
  /-- Content that has been rendered to a node. -/
  | node (n : Dom.Node)

namespace Value

/-- The text of a value. -/
def text : Value → String
  | null => ""
  | bool b => if b then "true" else "false"
  | int n => toString n.toInt
  | float x => Decimal.ofFloat x
  | str s => s
  | node n => n.outerHtml

/-- The content of a string. -/
def str? : Value → Option String
  | str s => some s
  | _ => none

/-- The node of a node value. -/
def node? : Value → Option Dom.Node
  | node n => some n
  | _ => none

/-- The value of something that may be missing. -/
def ofOption {α : Type} (f : α → Value) : Option α → Value
  | none => null
  | some a => f a

end Value

end MarkupTemplate
