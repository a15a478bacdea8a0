import MarkupTemplate.Suspension.Rendered

/-!
# The algebra of jobs

Jobs are compared by equality, which leaves nothing open: equal jobs record the same events in the
same polls, ask for the same polls and come to the same end. Changing the value of a job and
putting a record before its first poll are actions that commute with each other and with the join
of two jobs in rounds, and a job that settles silently in its first poll is neutral in such a join.

## Main results

* `MarkupTemplate.Job.map_map`, `MarkupTemplate.Job.map_prepend`.
* `MarkupTemplate.Job.both_map_right` — a value changed on one side of a join.
* `MarkupTemplate.Job.both_settled_left`, `MarkupTemplate.Job.both_settled_right`.
* `MarkupTemplate.Job.joinRounds_settled_cons` — a settled job at the front of a join.
-/

namespace MarkupTemplate

variable {ω α β γ δ : Type}

namespace Job

/-! ### Values and records -/

@[simp] theorem map_settled (f : α → β) (events : List ω) (a : α) :
    (settled events (.ok a)).map f = settled events (.ok (f a)) := rfl

@[simp] theorem map_map (f : α → β) (g : β → γ) : (t : Job ω α) →
    (t.map f).map g = t.map fun a => g (f a)
  | settles _ (.ok _) => rfl
  | settles _ (.error _) => rfl
  | waits events next => congrArg (waits events) (map_map f g next)
  | stalls _ => rfl

@[simp] theorem map_prepend (f : α → β) (p : Poll ω) : (t : Job ω α) →
    (t.prepend p).map f = (t.map f).prepend p
  | settles _ (.ok _) => rfl
  | settles _ (.error _) => rfl
  | waits .. => rfl
  | stalls _ => rfl

@[simp] theorem prepend_silent : (t : Job ω α) → t.prepend .silent = t
  | settles _ _ => rfl
  | waits .. => rfl
  | stalls _ => rfl

theorem prepend_prepend (p q : Poll ω) : (t : Job ω α) →
    (t.prepend q).prepend p = t.prepend (p ++ q)
  | settles r _ => congrArg (settles · _) (Poll.append_assoc p q r).symm
  | waits events t => congrArg (waits · t) (List.append_assoc p.events q.events events).symm
  | stalls r => congrArg stalls (Poll.append_assoc p q r).symm

/-- A record before the first poll may be made before or after a step is added. -/
theorem prepend_andThen (f : α → Attempt ω (Rendered ω β)) (p : Poll ω) : (t : Job ω α) →
    (t.prepend p).andThen f = (t.andThen f).prepend p
  | settles q (.ok a) => (prepend_prepend p q (f a).toJob).symm
  | settles _ (.error _) => rfl
  | waits .. => rfl
  | stalls _ => rfl

@[simp] theorem starve_map (f : α → β) : (t : Job ω α) →
    ((t.map f).starve : Job ω γ) = t.starve
  | settles _ (.ok _) => rfl
  | settles _ (.error _) => rfl
  | waits events next => congrArg (waits events) (starve_map f next)
  | stalls _ => rfl

@[simp] theorem map_starve (f : β → γ) : (t : Job ω α) →
    (t.starve : Job ω β).map f = t.starve
  | settles _ (.ok _) => rfl
  | settles _ (.error _) => rfl
  | waits events next => congrArg (waits events) (map_starve f next)
  | stalls _ => rfl

/-! ### Two jobs in rounds -/

/-- The value of the right job may be changed before or after the join. -/
theorem both_map_right (f : β → γ) : (t : Job ω α) → (u : Job ω β) →
    both t (u.map f) = (both t u).map fun p => (p.1, f p.2)
  | settles _ (.error _), _ => rfl
  | settles poll (.ok a), u => by simp only [both, map_map, map_prepend]
  | stalls poll, u => by simp only [both, starve_map, map_prepend, map_starve]
  | waits _ _, settles _ (.error _) => rfl
  | waits _ t, settles _ (.ok b) => by simp only [both, Job.map, map_map]
  | waits events t, waits es u => congrArg (waits (events ++ es)) (both_map_right f t u)
  | waits _ t, stalls _ => by simp only [both, Job.map, map_starve]

/-- A job that settles silently in its first poll only adds its value from the left. -/
@[simp] theorem both_settled_left (a : α) (u : Job ω β) :
    both (settled [] (.ok a)) u = u.map fun b => (a, b) :=
  prepend_silent _

/-- A job that settles silently in its first poll only adds its value from the right. -/
@[simp] theorem both_settled_right (b : β) : (t : Job ω α) →
    both t (settled [] (.ok b)) = t.map fun a => (a, b)
  | settles poll (.ok a) => congrArg (settles · (.ok (a, b))) (Poll.append_silent poll)
  | settles _ (.error _) => rfl
  | waits events t => congrArg (waits · (t.map fun a => (a, b))) (List.append_nil events)
  | stalls poll => congrArg stalls (Poll.append_silent poll)

/-! ### Lists of jobs in rounds -/

/-- A join whose first job settles silently in its first poll is the join of the others. -/
theorem joinRounds_settled_cons (a : α) (ts : List (Job ω α)) :
    joinRounds (settled [] (.ok a) :: ts) = (joinRounds ts).map fun as => a :: as := by
  rw [joinRounds, both_settled_left, map_map]

/-- A join of jobs that all settle silently in their first poll does so too. -/
theorem joinRounds_settled : (as : List α) →
    joinRounds (as.map fun a => (settled [] (.ok a) : Job ω α)) = settled [] (.ok as)
  | [] => rfl
  | a :: as => by rw [List.map_cons, joinRounds_settled_cons, joinRounds_settled as, map_settled]

end Job

end MarkupTemplate
