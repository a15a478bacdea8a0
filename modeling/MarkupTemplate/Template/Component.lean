import MarkupTemplate.Suspension.Rendered
import MarkupTemplate.Template.Props

/-!
# Components

A component renders its properties to an output, at once or later. Components are registered under
names that begin with an upper-case letter, and a registry gives each registration an identity of
its own: two occurrences of a component are the same only if they come from one registration.
The container of several top-level nodes is built in, and a registered component takes its place
if it has its name.

## Main definitions

* `MarkupTemplate.Component` — a named function from properties to output.
* `MarkupTemplate.Registry` — the components by name.
* `MarkupTemplate.Registry.resolve?` — the component for a tag.
-/

namespace MarkupTemplate

/-- A component with the name and the identity of its registration. -/
structure Component (ω ο : Type) where
  name : String
  identity : Nat
  render : Props ο → Attempt ω (Rendered ω ο)

/-- The name of the container of several top-level nodes. -/
def containerTag : String := "DocumentFragment"

/-- The container, which renders to its children. Its identity is kept free by registries. -/
def Component.container (ω ο : Type) : Component ω ο :=
  ⟨containerTag, 0, fun props => .succeed (.ready props.children)⟩

/-- The components by name, with the identity for the next registration. -/
structure Registry (ω ο : Type) where
  components : KeyedList String (Component ω ο)
  nextIdentity : Nat

namespace Registry

variable {ω ο : Type}

/-- No registered component. -/
def empty : Registry ω ο := ⟨[], 1⟩

/-- Registers a function under a name, in place of an earlier one of that name. -/
def insert (name : String) (render : Props ο → Attempt ω (Rendered ω ο)) (r : Registry ω ο) :
    Registry ω ο :=
  ⟨r.components.put name ⟨name, r.nextIdentity, render⟩, r.nextIdentity + 1⟩

/-- The registered component of a name. -/
def get? (name : String) (r : Registry ω ο) : Option (Component ω ο) := r.components.get? name

/-- The component for a tag: a registered one, else the built-in container. -/
def resolve? (name : String) (r : Registry ω ο) : Option (Component ω ο) :=
  match r.get? name with
  | some component => some component
  | none => if name = containerTag then some (.container ω ο) else none

/-- The number of registered components. -/
def size (r : Registry ω ο) : Nat := r.components.length

end Registry

end MarkupTemplate
