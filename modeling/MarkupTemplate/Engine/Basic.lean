import MarkupTemplate.Engine.Cache
import MarkupTemplate.Rendering.Render

/-!
# Engines

An engine binds a backend, the registered components and a cache, so that a call names only its
source and its values.

## Main definitions

* `MarkupTemplate.Engine`, `MarkupTemplate.Engine.compile`, `MarkupTemplate.Engine.render`.
-/

namespace MarkupTemplate

/-- A backend with components and a cache. -/
structure Engine (ω ο : Type) where
  backend : Backend ο
  registry : Registry ω ο
  cache : Cache ω ο

namespace Engine

variable {ω ο : Type}

/-- An engine that has compiled nothing. -/
def ofRegistry (backend : Backend ο) (registry : Registry ω ο) : Engine ω ο :=
  ⟨backend, registry, .empty⟩

/-- The compiled tree of a source, and the engine after that. -/
def compile (held : Nat → Bool) (source : Source) (engine : Engine ω ο) :
    Except Error (Compiled ω ο) × Engine ω ο :=
  let (answer, cache) := engine.cache.compile held engine.registry source
  (answer, { engine with cache })

/-- The output of a source with values in its slots, and the engine after that. The compiled tree
is kept even if rendering fails. -/
def render (held : Nat → Bool) (source : Source) (values : List Value) (engine : Engine ω ο) :
    Attempt ω (Rendered ω ο) × Engine ω ο :=
  match engine.compile held source with
  | (.error error, engine) => (.fail error, engine)
  | (.ok compiled, engine) => (compiled.tree.render engine.backend values, engine)

end Engine

end MarkupTemplate
