import MarkupTemplate.Error

/-!
# Attempts

An attempt is a computation that ends at once, with a value or an error, and records events on
the way. Events that precede an error are kept.

## Main definitions

* `MarkupTemplate.Attempt` — events and a result, a monad in the result.
* `MarkupTemplate.Attempt.record`, `MarkupTemplate.Attempt.fail` — the two effects.
-/

namespace MarkupTemplate

/-- The events of a computation that has ended, and its result. -/
structure Attempt (ω α : Type) where
  events : List ω
  result : Except Error α

namespace Attempt

variable {ω α β : Type}

/-- A value without events. -/
def succeed (a : α) : Attempt ω α := ⟨[], .ok a⟩

/-- An error without events. -/
def fail (error : Error) : Attempt ω α := ⟨[], .error error⟩

/-- One event. -/
def record (event : ω) : Attempt ω Unit := ⟨[event], .ok ()⟩

/-- A result without events. -/
def ofExcept (result : Except Error α) : Attempt ω α := ⟨[], result⟩

/-- The computation with events put before its own. -/
def prepend (events : List ω) (x : Attempt ω α) : Attempt ω α := ⟨events ++ x.events, x.result⟩

/-- Goes on from the value of `x`, if it has one. -/
def andThen (x : Attempt ω α) (f : α → Attempt ω β) : Attempt ω β :=
  match x.result with
  | .ok a => (f a).prepend x.events
  | .error error => ⟨x.events, .error error⟩

instance : Monad (Attempt ω) where
  pure := succeed
  bind := andThen

end Attempt

end MarkupTemplate
