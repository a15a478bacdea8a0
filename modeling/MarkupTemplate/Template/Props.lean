import MarkupTemplate.KeyedList
import MarkupTemplate.Template.Value

/-!
# Properties of a component call

A component is called with its attributes as texts, with the values that were passed whole, and
with its rendered children. Attributes and values have distinct names and keep their order.

## Main definitions

* `MarkupTemplate.Props`, `MarkupTemplate.Props.ofParts`.
* `MarkupTemplate.Props.get?`, `MarkupTemplate.Props.value?` — reading an attribute.
-/

namespace MarkupTemplate

/-- What a component is called with, `ο` being the type of rendered output. -/
structure Props (ο : Type) where
  attributes : KeyedList String String
  values : KeyedList String Value
  children : ο

namespace Props

variable {ο : Type}

/-- No attributes. -/
def ofChildren (children : ο) : Props ο := ⟨[], [], children⟩

/-- The properties from attributes and values as they stand in a template, where a name may
occur twice. The last occurrence counts. -/
def ofParts (attributes : List (String × String)) (values : List (String × Value))
    (children : ο) : Props ο :=
  ⟨KeyedList.ofPairs attributes, KeyedList.ofPairs values, children⟩

/-- The properties with an attribute set to a text. -/
def withAttribute (name value : String) (props : Props ο) : Props ο :=
  { props with attributes := props.attributes.put name value }

/-- The text of an attribute. -/
def get? (name : String) (props : Props ο) : Option String := props.attributes.get? name

/-- The value of an attribute that was a single substitution. -/
def value? (name : String) (props : Props ο) : Option Value := props.values.get? name

end Props

end MarkupTemplate
