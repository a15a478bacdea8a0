import MarkupTemplate.Suspension.Job

/-!
# Joins

A join is one job for a list of jobs, with their values in the order of the list. The number of
jobs decides how they are polled.

Up to thirty jobs go in rounds. Every poll of the join polls each job once, in order, and the
first failure ends the round and the join. A stalled job does not stop the others, but the join
can then only fail. What is left of the others is their `starve`d form, in which success counts
as a stall.

More jobs take turns. They stand in a queue, from which a poll of the join takes one after the
other. A job that asks for another poll goes to the end of the queue, and one that stalls does
not come back. The poll is over when two jobs have asked since the last result, or when as many
have been polled since then as are without a result. Results count in the order of the list, so a
failure shows once all results before it are there.

## Main definitions

* `MarkupTemplate.Job.both`, `MarkupTemplate.Job.joinRounds` — two jobs and a list of jobs in
  rounds.
* `MarkupTemplate.Job.takeTurns`, `MarkupTemplate.Job.joinTurns` — a queue of jobs and a list of
  jobs that take turns.
* `MarkupTemplate.Job.joinAll` — the join of a list.
-/

namespace MarkupTemplate.Job

variable {ω α β : Type}

/-! ### Rounds -/

/-- The job beside one that has stalled: it goes on, and only a failure still shows. -/
def starve : Job ω α → Job ω β
  | settles poll (.ok _) => stalls poll
  | settles poll (.error error) => settles poll (.error error)
  | waits events next => waits events next.starve
  | stalls poll => stalls poll

/-- Two jobs side by side. The left one is polled first in every round. -/
def both : Job ω α → Job ω β → Job ω (α × β)
  | settles poll (.error error), _ => settles poll (.error error)
  | settles poll (.ok a), right => (right.map fun b => (a, b)).prepend poll
  | stalls poll, right => right.starve.prepend poll
  | waits events left, right =>
    match right with
    | settles poll (.error error) => settles (⟨events, true⟩ ++ poll) (.error error)
    | settles poll (.ok b) => waits (events ++ poll.events) (left.map fun a => (a, b))
    | waits es right => waits (events ++ es) (both left right)
    | stalls poll => waits (events ++ poll.events) left.starve

/-- The jobs of a list in rounds. -/
def joinRounds : List (Job ω α) → Job ω (List α)
  | [] => settled [] (.ok [])
  | t :: ts => (both t (joinRounds ts)).map fun p => p.1 :: p.2

/-! ### Turns -/

/-- The results of a list of jobs as far as they have come. -/
abbrev Results (α : Type) := List (Option (Except Error α))

/-- The number of jobs without a result. -/
def Results.missing (results : Results α) : Nat := results.countP Option.isNone

/-- What the results amount to, taken in order: the first error, or all values. A missing result
that stands before leaves it open. -/
def Results.total? : Results α → Option (Except Error (List α))
  | [] => some (.ok [])
  | none :: _ => none
  | some (.error error) :: _ => some (.error error)
  | some (.ok a) :: results =>
    match total? results with
    | some (.ok as) => some (.ok (a :: as))
    | some (.error error) => some (.error error)
    | none => none

/-- How far a poll of a queue has come. -/
structure Turn (ω : Type) where
  /-- The record of the poll. -/
  poll : Poll ω
  /-- How many jobs have been polled since the last result. -/
  polled : Nat
  /-- Whether one of these asked for another poll. -/
  asked : Bool

namespace Turn

/-- Nothing polled yet. -/
def start : Turn ω := ⟨.silent, 0, false⟩

/-- A job has given a result. -/
def afterResult (poll : Poll ω) (turn : Turn ω) : Turn ω := ⟨turn.poll ++ poll, 0, false⟩

/-- A job has been polled without a result. -/
def afterPoll (poll : Poll ω) (turn : Turn ω) : Turn ω :=
  ⟨turn.poll ++ poll, turn.polled + 1, turn.asked || poll.woken⟩

/-- Whether the poll of the queue ends with a poll of one of its jobs without a result. -/
def ends (poll : Poll ω) (results : Results α) (turn : Turn ω) : Bool :=
  (turn.asked && poll.woken) || turn.polled + 1 == results.missing

end Turn

/-- How many polls are left at most to the jobs of a queue. -/
def pollsLeft : List (Job ω α × Nat) → Nat
  | [] => 0
  | entry :: queue => entry.1.polls + pollsLeft queue

theorem pollsLeft_concat (queue : List (Job ω α × Nat)) (t : Job ω α) (place : Nat) :
    pollsLeft (queue ++ [(t, place)]) = pollsLeft queue + t.polls := by
  induction queue with
  | nil => simp [pollsLeft]
  | cons entry queue ih => simp [pollsLeft, ih, Nat.add_assoc]

theorem polls_pos (t : Job ω α) : 0 < t.polls := by
  cases t with
  | settles => exact Nat.one_pos
  | waits => exact Nat.succ_pos _
  | stalls poll =>
    rw [polls]
    split <;> omega

/-- Goes on with the poll of a queue of jobs, each with its place in the list of results. -/
def takeTurns (results : Results α) (turn : Turn ω) : List (Job ω α × Nat) → Job ω (List α)
  | [] => stalls turn.poll
  | (settles poll result, place) :: queue =>
    match Results.total? (results.set place (some result)) with
    | some total => settles (turn.poll ++ poll) total
    | none => takeTurns (results.set place (some result)) (turn.afterResult poll) queue
  | (waits events next, place) :: queue =>
    if turn.ends ⟨events, true⟩ results then
      waits (turn.poll.events ++ events) (takeTurns results .start (queue ++ [(next, place)]))
    else takeTurns results (turn.afterPoll ⟨events, true⟩) (queue ++ [(next, place)])
  | (stalls ⟨events, true⟩, place) :: queue =>
    if turn.ends ⟨events, true⟩ results then
      waits (turn.poll.events ++ events) (takeTurns results .start (queue ++ [(never, place)]))
    else takeTurns results (turn.afterPoll ⟨events, true⟩) (queue ++ [(never, place)])
  | (stalls ⟨events, false⟩, _) :: queue =>
    if turn.ends ⟨events, false⟩ results then
      waits (turn.poll.events ++ events) (takeTurns results .start queue)
    else takeTurns results (turn.afterPoll ⟨events, false⟩) queue
termination_by queue => pollsLeft queue
decreasing_by
  · exact Nat.lt_add_of_pos_left (polls_pos _)
  all_goals
    simp only [pollsLeft, pollsLeft_concat, polls, never, Poll.silent, if_true, Bool.false_eq_true,
      if_false]
    omega

/-- The jobs of a list taking turns. -/
def joinTurns (ts : List (Job ω α)) : Job ω (List α) :=
  takeTurns (ts.map fun _ => none) .start ts.zipIdx

/-! ### Joins -/

/-- The greatest number of jobs that go in rounds. -/
def roundLimit : Nat := 30

/-- The jobs of a list as one, with their values in the order of the list. -/
def joinAll (ts : List (Job ω α)) : Job ω (List α) :=
  if ts.length ≤ roundLimit then joinRounds ts else joinTurns ts

end MarkupTemplate.Job
