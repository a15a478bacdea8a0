import MarkupTemplate.Suspension.Attempt

/-!
# Jobs

A job is a computation that is driven by polls. A poll records events and then either settles the
job, leaves it waiting for the next poll, or leaves it stalled: no later poll will change it.

A job that waits asks in its poll to be polled again. Jobs of several parts may also ask and then
settle or stall in the same poll, so the record of a poll says whether it was asked for.

A job is finite: it settles or stalls after some number of polls. A computation that asks to be
polled again for ever, and never settles, is not a job. One that nothing comes of and that does not
ask is a job that stalls.

## Main definitions

* `MarkupTemplate.Poll` — the record of a poll.
* `MarkupTemplate.Job` — a job as the tree of its polls.
* `MarkupTemplate.Job.map` — a job with its value changed.
* `MarkupTemplate.Job.delay`, `MarkupTemplate.Job.never` — a job behind a number of idle polls,
  and one that nothing comes of.
* `MarkupTemplate.Job.run` — the events of all polls and what they lead to.
-/

namespace MarkupTemplate

/-- What a poll leaves behind beside its result. -/
@[ext]
structure Poll (ω : Type) where
  events : List ω
  /-- Whether another poll was asked for. -/
  woken : Bool
  deriving DecidableEq, Repr

namespace Poll

variable {ω : Type}

/-- Nothing happened. -/
def silent : Poll ω := ⟨[], false⟩

/-- Events, and no wish for another poll. -/
def ofEvents (events : List ω) : Poll ω := ⟨events, false⟩

instance : Append (Poll ω) := ⟨fun p q => ⟨p.events ++ q.events, p.woken || q.woken⟩⟩

@[simp] theorem events_append (p q : Poll ω) : (p ++ q).events = p.events ++ q.events := rfl

@[simp] theorem woken_append (p q : Poll ω) : (p ++ q).woken = (p.woken || q.woken) := rfl

@[simp] theorem silent_append (p : Poll ω) : silent ++ p = p := rfl

@[simp] theorem append_silent (p : Poll ω) : p ++ silent = p :=
  Poll.ext (by simp [silent]) (by simp [silent])

@[simp] theorem append_assoc (p q r : Poll ω) : p ++ q ++ r = p ++ (q ++ r) :=
  Poll.ext (by simp) (by simp [Bool.or_assoc])

end Poll

/-- A job, given by what its polls do. There are finitely many polls before it settles or stalls. -/
inductive Job (ω α : Type) where
  /-- The next poll gives the result. -/
  | settles (poll : Poll ω) (result : Except Error α)
  /-- The next poll records the events and asks for another, with which the job goes on. -/
  | waits (events : List ω) (next : Job ω α)
  /-- Nothing happens ever after the next poll. -/
  | stalls (poll : Poll ω)

/-- What the polls of a job lead to. -/
inductive Outcome (α : Type) where
  | value (a : α)
  | failure (error : Error)
  | stuck

namespace Job

variable {ω α β : Type}

/-- The job with a record put before that of its next poll. -/
def prepend (poll : Poll ω) : Job ω α → Job ω α
  | settles p result => settles (poll ++ p) result
  | waits events next => waits (poll.events ++ events) next
  | stalls p => stalls (poll ++ p)

/-- The job with its value changed, in the poll in which it settles. -/
def map (f : α → β) : Job ω α → Job ω β
  | settles poll (.ok a) => settles poll (.ok (f a))
  | settles poll (.error error) => settles poll (.error error)
  | waits events next => waits events (next.map f)
  | stalls poll => stalls poll

/-- The job that settles in its first poll. -/
def settled (events : List ω) (result : Except Error α) : Job ω α :=
  settles (.ofEvents events) result

/-- The job that stalls at once. -/
def never : Job ω α := stalls .silent

/-- The job behind `n` idle polls. -/
def delay (t : Job ω α) : (n : Nat) → Job ω α
  | 0 => t
  | n + 1 => waits [] (t.delay n)

/-- The events of all polls, and what they lead to. -/
def run : Job ω α → List ω × Outcome α
  | settles poll (.ok a) => (poll.events, .value a)
  | settles poll (.error error) => (poll.events, .failure error)
  | waits events next => (events ++ next.run.1, next.run.2)
  | stalls poll => (poll.events, .stuck)

/-- The number of polls after which a job has settled or shows that it has stalled, by leaving no
wish for another. -/
def polls : Job ω α → Nat
  | settles .. => 1
  | waits _ next => next.polls + 1
  | stalls poll => if poll.woken then 2 else 1

end Job

end MarkupTemplate
