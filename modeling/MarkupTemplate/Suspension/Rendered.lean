import MarkupTemplate.Suspension.Join

/-!
# Results that may be pending

A rendered result is ready, or it is pending and a job will produce it. Steps that follow a
result run at once if it is ready, and otherwise in the poll in which its job settles. If such a
step gives a pending result in turn, that is polled for the first time in the same poll.

## Main definitions

* `MarkupTemplate.Rendered` — ready or pending.
* `MarkupTemplate.Rendered.map`, `MarkupTemplate.Rendered.mapRecording`,
  `MarkupTemplate.Rendered.andThen` — following a result.
* `MarkupTemplate.Rendered.joinAll` — a list of results as the result of a list.
* `MarkupTemplate.Settlement` — an attempt at a result, driven to its end.
-/

namespace MarkupTemplate

/-- A result that is there, or a job that will produce it. -/
inductive Rendered (ω α : Type) where
  | ready (a : α)
  | pending (job : Job ω α)

variable {ω α β : Type}

/-- The job that an attempt at a result amounts to, once it is driven by polls. The events of
the attempt belong to the first poll. -/
def Attempt.toJob (x : Attempt ω (Rendered ω α)) : Job ω α :=
  match x.result with
  | .error error => .settled x.events (.error error)
  | .ok (.ready a) => .settled x.events (.ok a)
  | .ok (.pending job) => job.prepend (.ofEvents x.events)

/-- The job with its value changed by a function that records events. They belong to the poll in
which the job settles. -/
def Job.mapRecording (f : α → List ω × β) : Job ω α → Job ω β
  | settles poll (.ok a) => settles (poll ++ .ofEvents (f a).1) (.ok (f a).2)
  | settles poll (.error error) => settles poll (.error error)
  | waits events next => waits events (next.mapRecording f)
  | stalls poll => stalls poll

/-- Goes on from the value of a job with a step that may fail or suspend. -/
def Job.andThen (f : α → Attempt ω (Rendered ω β)) : Job ω α → Job ω β
  | settles poll (.ok a) => (f a).toJob.prepend poll
  | settles poll (.error error) => settles poll (.error error)
  | waits events next => waits events (next.andThen f)
  | stalls poll => stalls poll

namespace Rendered

/-- Whether the result is not there yet. -/
def isPending : Rendered ω α → Bool
  | ready _ => false
  | pending _ => true

/-- The result, if it is there. -/
def ready? : Rendered ω α → Option α
  | ready a => some a
  | pending _ => none

/-- The result as a job. What is ready settles in the first poll. -/
def toJob : Rendered ω α → Job ω α
  | ready a => .settled [] (.ok a)
  | pending job => job

/-- The result with its value changed. -/
def map (f : α → β) : Rendered ω α → Rendered ω β
  | ready a => ready (f a)
  | pending job => pending (job.map f)

/-- The result with its value changed by a function that records events: at once if the value is
there, and otherwise when the job settles. -/
def mapRecording (f : α → List ω × β) : Rendered ω α → Attempt ω (Rendered ω β)
  | ready a => ⟨(f a).1, .ok (ready (f a).2)⟩
  | pending job => .succeed (pending (job.mapRecording f))

/-- Goes on from the value with a step that may fail or suspend. After a ready result its error is
the error of the whole, and after a pending one it is a failure of the job. -/
def andThen (r : Rendered ω α) (f : α → Attempt ω (Rendered ω β)) : Attempt ω (Rendered ω β) :=
  match r with
  | ready a => f a
  | pending job => .succeed (pending (job.andThen f))

/-- The values of a list of results, if all are ready. -/
def readyAll? : List (Rendered ω α) → Option (List α)
  | [] => some []
  | ready a :: rs => (readyAll? rs).map (a :: ·)
  | pending _ :: _ => none

/-- The result of a list, with values in the order of the list. It is ready if all are. -/
def joinAll (rs : List (Rendered ω α)) : Rendered ω (List α) :=
  match readyAll? rs with
  | some as => ready as
  | none => pending (.joinAll (rs.map toJob))

end Rendered

/-- How an attempt at a result ends when its job is polled to the end. -/
inductive Settlement (α : Type) where
  /-- The attempt fails, and there is nothing to poll. -/
  | refused (error : Error)
  | ready (a : α)
  | polled (outcome : Outcome α)

/-- Drives an attempt at a result to its end. The events are those of the attempt, then those of
the polls. -/
def Attempt.settle (x : Attempt ω (Rendered ω α)) : List ω × Settlement α :=
  match x.result with
  | .error error => (x.events, .refused error)
  | .ok (.ready a) => (x.events, .ready a)
  | .ok (.pending job) => (x.events ++ job.run.1, .polled job.run.2)

end MarkupTemplate
