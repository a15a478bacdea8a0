import MarkupTemplate.Template.Component

/-!
# Template trees

A template compiles to a tree of literal texts, references to substitutions, elements and calls of
components. Attribute values are single literals or references, or several of them in a row.

## Main definitions

* `MarkupTemplate.Tree` — a compiled template.
* `MarkupTemplate.Tree.references` — the references in document order, those in the attributes of
  a node before those in its children.
* `MarkupTemplate.Tree.same` — whether two trees agree, components being compared by identity.
-/

namespace MarkupTemplate

/-- A piece of an attribute value. -/
inductive Part where
  | text (content : String)
  | reference (index : Nat)
  deriving DecidableEq, Repr

/-- An attribute value. -/
inductive AttrValue where
  | single (part : Part)
  | parts (parts : List Part)
  deriving DecidableEq, Repr

/-- Attributes in source order. -/
abbrev Attributes := List (String × AttrValue)

/-- A compiled template for components that record events `ω` and render to `ο`. -/
inductive Tree (ω ο : Type) where
  /-- Markup that is rendered as it stands. -/
  | text (markup : String)
  | reference (index : Nat)
  | element (tag : String) (attrs : Attributes) (children : List (Tree ω ο))
  | component (c : Component ω ο) (attrs : Attributes) (children : List (Tree ω ο))

/-- The reference that a piece is. -/
def Part.reference? : Part → Option Nat
  | text _ => none
  | reference index => some index

/-- The pieces of an attribute value. -/
def AttrValue.pieces : AttrValue → List Part
  | single part => [part]
  | parts ps => ps

/-- The references in an attribute value. -/
def AttrValue.references (value : AttrValue) : List Nat := value.pieces.filterMap Part.reference?

/-- The references in attributes. -/
def Attributes.references (attrs : Attributes) : List Nat :=
  attrs.flatMap fun attr => attr.2.references

namespace Tree

variable {ω ο : Type}

mutual

/-- The references in a tree in document order. -/
def references : Tree ω ο → List Nat
  | text _ => []
  | reference index => [index]
  | element _ attrs children => Attributes.references attrs ++ referencesAll children
  | component _ attrs children => Attributes.references attrs ++ referencesAll children

/-- The references in a list of trees. -/
def referencesAll : List (Tree ω ο) → List Nat
  | [] => []
  | t :: ts => references t ++ referencesAll ts

end

mutual

/-- Whether two trees agree in all parts, with components of the same identity. -/
def same : Tree ω ο → Tree ω ο → Bool
  | text a, text b => a == b
  | reference i, reference j => i == j
  | element a as ts, element b bs us => a == b && as == bs && sameAll ts us
  | component c as ts, component d bs us =>
    c.identity == d.identity && as == bs && sameAll ts us
  | _, _ => false

/-- Whether two lists of trees agree. -/
def sameAll : List (Tree ω ο) → List (Tree ω ο) → Bool
  | [], [] => true
  | t :: ts, u :: us => same t u && sameAll ts us
  | _, _ => false

end

end Tree

end MarkupTemplate
