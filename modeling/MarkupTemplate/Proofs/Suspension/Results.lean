import MarkupTemplate.Proofs.Suspension.Logs

/-!
# What jobs end in

A composed job ends with values and errors that come from its parts: its errors are errors of the
parts, and its values are made of their values. So what holds for the ends of the parts carries over
to the end of the whole, whether the parts follow one another, go in rounds or take turns.

## Main definitions

* `MarkupTemplate.Job.EndsIn` — the value of a job and its error have given properties.

## Main results

* `MarkupTemplate.Job.endsIn_iff_run` — a job that is polled to its end.
* `MarkupTemplate.Job.EndsIn.both`, `MarkupTemplate.Job.endsIn_takeTurns`,
  `MarkupTemplate.Job.EndsIn.andThen` — the ends of composed jobs.
* `MarkupTemplate.Rendered.endsIn_joinAll` — the end of a join.
* `MarkupTemplate.Attempt.endsIn_iff_settle` — an attempt that is driven to its end.
-/

namespace MarkupTemplate

variable {ω α β : Type} {p : α → Prop} {r : β → Prop} {q : Error → Prop}

/-- The value of a result has one property, and its error another. -/
def ResultIn (p : α → Prop) (q : Error → Prop) : Except Error α → Prop
  | .ok a => p a
  | .error error => q error

namespace Job

/-- A job that settles does so with a value with the property `p` or an error with the property
`q`. -/
def EndsIn (p : α → Prop) (q : Error → Prop) : Job ω α → Prop
  | settles _ result => ResultIn p q result
  | waits _ next => next.EndsIn p q
  | stalls _ => True

theorem endsIn_iff_run : (t : Job ω α) →
    (t.EndsIn p q ↔
      (∀ a, t.run.2 = .value a → p a) ∧ ∀ error, t.run.2 = .failure error → q error)
  | settles _ (.ok _) =>
    ⟨fun h => ⟨fun _ ha => Outcome.value.inj ha ▸ h, nofun⟩, fun h => h.1 _ rfl⟩
  | settles _ (.error _) =>
    ⟨fun h => ⟨nofun, fun _ he => Outcome.failure.inj he ▸ h⟩, fun h => h.2 _ rfl⟩
  | waits _ t => endsIn_iff_run t
  | stalls _ => iff_of_true trivial ⟨nofun, nofun⟩

@[simp] theorem endsIn_prepend (poll : Poll ω) (t : Job ω α) :
    (t.prepend poll).EndsIn p q ↔ t.EndsIn p q := by
  cases t <;> exact Iff.rfl

@[simp] theorem endsIn_map (f : α → β) : (t : Job ω α) →
    ((t.map f).EndsIn r q ↔ t.EndsIn (fun a => r (f a)) q)
  | settles _ (.ok _) => Iff.rfl
  | settles _ (.error _) => Iff.rfl
  | waits _ t => endsIn_map f t
  | stalls _ => Iff.rfl

namespace EndsIn

variable {t : Job ω α}

theorem mono {p' : α → Prop} (h : t.EndsIn p q) (hp : ∀ a, p a → p' a) : t.EndsIn p' q := by
  induction t with
  | settles poll result =>
    cases result with
    | ok a => exact hp a h
    | error error => exact h
  | waits events next ih => exact ih h
  | stalls poll => trivial

/-- A starved job has no value any more. -/
theorem starve (h : t.EndsIn p q) : (t.starve : Job ω β).EndsIn r q := by
  induction t with
  | settles poll result =>
    cases result with
    | ok a => trivial
    | error error => exact h
  | waits events next ih => exact ih h
  | stalls poll => trivial

/-- A step that follows a job brings in its own errors. -/
theorem andThen {f : α → Attempt ω (Rendered ω β)} (hf : ∀ a, p a → (f a).toJob.EndsIn r q)
    (h : t.EndsIn p q) : (t.andThen f).EndsIn r q := by
  induction t with
  | settles poll result =>
    cases result with
    | ok a => exact (endsIn_prepend poll _).mpr (hf a h)
    | error error => exact h
  | waits events next ih => exact ih h
  | stalls poll => trivial

/-! ### Rounds -/

theorem both : (t : Job ω α) → (u : Job ω β) → t.EndsIn p q → u.EndsIn r q →
    (both t u).EndsIn (fun x => p x.1 ∧ r x.2) q
  | settles _ (.error _), _, ht, _ => ht
  | settles poll (.ok _), u, ht, hu => by
    rw [Job.both, endsIn_prepend, endsIn_map]
    exact hu.mono fun b hb => ⟨ht, hb⟩
  | stalls poll, u, _, hu => by
    rw [Job.both, endsIn_prepend]
    exact hu.starve
  | waits _ _, settles _ (.error _), _, hu => hu
  | waits _ t, settles _ (.ok _), ht, hu => by
    have ht : t.EndsIn p q := ht
    exact (endsIn_map _ t).mpr (ht.mono fun a ha => ⟨ha, hu⟩)
  | waits _ t, waits _ u, ht, hu => both t u ht hu
  | waits _ t, stalls _, ht, _ => by
    have ht : t.EndsIn p q := ht
    exact ht.starve

end EndsIn

theorem endsIn_joinRounds : {ts : List (Job ω α)} → (∀ t ∈ ts, t.EndsIn p q) →
    (joinRounds ts).EndsIn (fun as => ∀ a ∈ as, p a) q
  | [], _ => List.forall_mem_nil p
  | t :: ts, h => by
    obtain ⟨ht, hts⟩ := List.forall_mem_cons.mp h
    rw [joinRounds, endsIn_map]
    exact (EndsIn.both t _ ht (endsIn_joinRounds hts)).mono fun x hx =>
      List.forall_mem_cons.mpr hx

/-! ### Turns -/

/-- The values that results amount to are among them, and so is the error. -/
theorem Results.resultIn_of_total? {results : Results α} {total : Except Error (List α)}
    (h : ∀ result, some result ∈ results → ResultIn p q result)
    (ht : results.total? = some total) : ResultIn (fun as => ∀ a ∈ as, p a) q total := by
  induction results generalizing total with
  | nil =>
    cases ht
    exact List.forall_mem_nil p
  | cons result? results ih =>
    have hrest := fun result hr => h result (List.mem_cons_of_mem result? hr)
    match result?, ht with
    | some (.error error), ht =>
      cases ht
      exact h (.error error) List.mem_cons_self
    | some (.ok a), ht =>
      rw [Results.total?] at ht
      split at ht
      · rename_i as has
        cases ht
        exact List.forall_mem_cons.mpr ⟨h (.ok a) List.mem_cons_self, ih hrest has⟩
      · rename_i error he
        cases ht
        exact ih hrest he
      · cases ht

/-- All results that have come and all ends of the jobs in the queue have the properties. -/
structure TurnsEndIn (p : α → Prop) (q : Error → Prop) (results : Results α)
    (queue : List (Job ω α × Nat)) : Prop where
  results : ∀ result, some result ∈ results → ResultIn p q result
  jobs : ∀ entry ∈ queue, entry.1.EndsIn p q

namespace TurnsEndIn

variable {results : Results α} {queue : List (Job ω α × Nat)} {t next : Job ω α} {place : Nat}

/-- The front of the queue is taken and does not come back. -/
theorem drop (h : TurnsEndIn p q results ((t, place) :: queue)) :
    TurnsEndIn p q results queue :=
  ⟨h.results, (List.forall_mem_cons.mp h.jobs).2⟩

/-- The front of the queue is taken, and what is left of it goes to the end. -/
theorem requeue (h : TurnsEndIn p q results ((t, place) :: queue)) (hn : next.EndsIn p q) :
    TurnsEndIn p q results (queue ++ [(next, place)]) :=
  ⟨h.results, List.forall_mem_append.mpr ⟨h.drop.jobs, List.forall_mem_singleton.mpr hn⟩⟩

/-- The front of the queue settles, and its result is noted. -/
theorem settle {poll : Poll ω} {result : Except Error α}
    (h : TurnsEndIn p q results ((settles poll result, place) :: queue)) :
    TurnsEndIn p q (results.set place (some result)) queue where
  results result' hr := by
    rcases List.mem_or_eq_of_mem_set hr with hr | hr
    · exact h.results result' hr
    · cases hr
      exact (List.forall_mem_cons.mp h.jobs).1
  jobs := h.drop.jobs

end TurnsEndIn

/-- Jobs that take turns end with results that have come already or that one of them has. -/
theorem endsIn_takeTurns {results : Results α} {turn : Turn ω} {queue : List (Job ω α × Nat)}
    (h : TurnsEndIn p q results queue) :
    (takeTurns results turn queue).EndsIn (fun as => ∀ a ∈ as, p a) q := by
  -- in turn: an empty queue, a result that ends the join, one that does not, a job that waits,
  -- one that stalls and asked for another poll, and one that stalls silently; of the last three,
  -- each may end the poll or not
  induction results, turn, queue using takeTurns.induct with
  | case1 results turn =>
    rw [takeTurns]
    trivial
  | case2 results turn poll result place queue total ht =>
    rw [takeTurns, ht]
    exact Results.resultIn_of_total? h.settle.results ht
  | case3 results turn poll result place queue ht ih =>
    rw [takeTurns, ht]
    exact ih h.settle
  | case4 results turn events next place queue he ih =>
    rw [takeTurns, if_pos he]
    exact ih (h.requeue (h.jobs _ List.mem_cons_self))
  | case5 results turn events next place queue he ih =>
    rw [takeTurns, if_neg he]
    exact ih (h.requeue (h.jobs _ List.mem_cons_self))
  | case6 results turn events place queue he ih =>
    rw [takeTurns, if_pos he]
    exact ih (h.requeue trivial)
  | case7 results turn events place queue he ih =>
    rw [takeTurns, if_neg he]
    exact ih (h.requeue trivial)
  | case8 results turn events place queue he ih =>
    rw [takeTurns, if_pos he]
    exact ih h.drop
  | case9 results turn events place queue he ih =>
    rw [takeTurns, if_neg he]
    exact ih h.drop

theorem endsIn_joinTurns {ts : List (Job ω α)} (h : ∀ t ∈ ts, t.EndsIn p q) :
    (joinTurns ts).EndsIn (fun as => ∀ a ∈ as, p a) q := by
  refine endsIn_takeTurns ⟨fun result hr => ?_, fun entry he => ?_⟩
  · obtain ⟨_, _, hr⟩ := List.mem_map.mp hr
    cases hr
  · exact h entry.1 (List.fst_mem_of_mem_zipIdx he)

end Job

/-! ### Results and attempts -/

namespace Rendered

/-- A join ends with values of its items or an error of one of them, however many there are. -/
theorem endsIn_joinAll {rs : List (Rendered ω α)} (h : ∀ r ∈ rs, r.toJob.EndsIn p q) :
    (joinAll rs).toJob.EndsIn (fun as => ∀ a ∈ as, p a) q := by
  have hjobs : ∀ t ∈ rs.map toJob, t.EndsIn p q := List.forall_mem_map.mpr h
  rw [joinAll]
  split
  · rename_i as has
    rw [readyAll?_eq_some_iff] at has
    intro a ha
    exact h (.ready a) (has ▸ List.mem_map_of_mem ha)
  · rw [toJob, Job.joinAll]
    split
    · exact Job.endsIn_joinRounds hjobs
    · exact Job.endsIn_joinTurns hjobs

theorem endsIn_andThen {f : α → Attempt ω (Rendered ω β)}
    (hf : ∀ a, p a → (f a).toJob.EndsIn r q) {x : Rendered ω α} (hx : x.toJob.EndsIn p q) :
    (x.andThen f).toJob.EndsIn r q := by
  rw [toJob_andThen]
  exact hx.andThen hf

end Rendered

namespace Attempt

/-- An attempt that gives a result ends as the result does. -/
theorem endsIn_iff_of_result {x : Attempt ω (Rendered ω α)} {result : Rendered ω α}
    (h : x.result = .ok result) : x.toJob.EndsIn p q ↔ result.toJob.EndsIn p q := by
  rcases x with ⟨events, result'⟩
  cases h
  rw [toJob_mk_ok, Job.endsIn_prepend]

/-- Driven to its end, an attempt ends as its job does. -/
theorem endsIn_iff_settle (x : Attempt ω (Rendered ω α)) :
    x.toJob.EndsIn p q ↔
      (∀ a, x.settle.2 = .ready a ∨ x.settle.2 = .polled (.value a) → p a) ∧
        ∀ error, x.settle.2 = .refused error ∨ x.settle.2 = .polled (.failure error) →
          q error := by
  rcases x with ⟨events, error | a | t⟩
  · simp [toJob, settle, Job.settled, Job.EndsIn, ResultIn]
  · simp [toJob, settle, Job.settled, Job.EndsIn, ResultIn]
  · have h : (t.prepend (.ofEvents events)).EndsIn p q ↔ _ :=
      (Job.endsIn_prepend _ t).trans (Job.endsIn_iff_run t)
    simpa [toJob, settle] using h

end Attempt

end MarkupTemplate
