import MarkupTemplate.Rendering.Backend
import MarkupTemplate.Template.Fold
import MarkupTemplate.Template.Fragments

/-!
# Rendering

A tree is rendered with the values of its slots through a backend. Attributes are resolved first,
then all children are rendered from left to right, and nothing waits until all of them have been
started. A component is called when the output of its children is there, which is later if one of
them is pending.

## Main definitions

* `MarkupTemplate.resolveAttributes` — attributes as texts.
* `MarkupTemplate.Tree.render` — the output of a tree.
-/

namespace MarkupTemplate

/-- The value of a slot. -/
def substitution (values : List Value) (index : Nat) : Except Error Value :=
  match values[index]? with
  | some v => .ok v
  | none => .error (.missingSubstitution index values.length)

/-- The text of a piece of an attribute value. -/
def Part.resolve (values : List Value) : Part → Except Error String
  | text content => .ok content
  | reference index => (substitution values index).map Value.text

/-- The texts of pieces in a row, as one text. -/
def resolveParts (values : List Value) : List Part → Except Error String
  | [] => .ok ""
  | p :: ps => do
    let s ← p.resolve values
    let rest ← resolveParts values ps
    return s ++ rest

/-- The attributes with the texts of their values, whatever the backend. -/
def resolveAttributes (values : List Value) : Attributes → Except Error (List (String × String))
  | [] => .ok []
  | (name, value) :: attrs => do
    let s ← resolveParts values value.pieces
    let rest ← resolveAttributes values attrs
    return (name, s) :: rest

/-- The values of the attributes that are a single reference. -/
def wholeValues (values : List Value) : Attributes → Except Error (List (String × Value))
  | [] => .ok []
  | (name, .single (.reference index)) :: attrs => do
    let v ← substitution values index
    let rest ← wholeValues values attrs
    return (name, v) :: rest
  | _ :: attrs => wholeValues values attrs

namespace Tree

variable {ω ο : Type}

/-- The joined output of rendered siblings. -/
def joinRendered (backend : Backend ο) (rs : List (Rendered ω ο)) : Rendered ω ο :=
  (Rendered.joinAll rs).map backend.join

mutual

/-- The output of a tree. -/
def render (backend : Backend ο) (values : List Value) : Tree ω ο → Attempt ω (Rendered ω ο)
  | text markup => .succeed (.ready (backend.static markup))
  | reference index => do
    let v ← Attempt.ofExcept (substitution values index)
    return .ready (backend.value v)
  | element tag attrs children => do
    let texts ← Attempt.ofExcept (resolveAttributes values attrs)
    let rs ← renderAll backend values children
    return (joinRendered backend rs).map (backend.element tag texts)
  | component c attrs children => do
    let texts ← Attempt.ofExcept (resolveAttributes values attrs)
    let wholes ← Attempt.ofExcept (wholeValues values attrs)
    let rs ← renderAll backend values children
    (joinRendered backend rs).andThen fun output => c.render (.ofParts texts wholes output)

/-- The outputs of siblings, up to the first error. -/
def renderAll (backend : Backend ο) (values : List Value) :
    List (Tree ω ο) → Attempt ω (List (Rendered ω ο))
  | [] => .succeed []
  | t :: ts => do
    let r ← render backend values t
    let rs ← renderAll backend values ts
    return r :: rs

end

end Tree

/-- Compiles fragments for no components but the built-in one, and renders them. -/
def renderFragments {ω ο : Type} (backend : Backend ο) (fragments : List String)
    (values : List Value) : Attempt ω (Rendered ω ο) := do
  let tree ← Attempt.ofExcept (Tree.compile Registry.empty (Fragments.join fragments))
  tree.render backend values

end MarkupTemplate
