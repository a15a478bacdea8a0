import MarkupTemplate.Proofs.Suspension.Results

/-!
# Where failures come from

A composed job fails only with an error with which one of its parts fails. So a property that all
errors of the parts have is one that all errors of the whole have, whatever the values are. This is
the case of `MarkupTemplate.Job.EndsIn` in which nothing is asked of the values.

## Main definitions

* `MarkupTemplate.Job.FailsOnly` — all errors that a job can fail with have a property.

## Main results

* `MarkupTemplate.Job.failsOnly_iff_endsIn`
* `MarkupTemplate.Job.failsOnly_iff_run` — a job that is polled to its end.
* `MarkupTemplate.Attempt.failsOnly_iff_settle` — an attempt that is driven to its end.
-/

namespace MarkupTemplate

variable {ω α β : Type} {P : Error → Prop}

namespace Job

/-- If the job fails, it does so with an error that has the property. -/
def FailsOnly (P : Error → Prop) : Job ω α → Prop
  | settles _ (.ok _) => True
  | settles _ (.error error) => P error
  | waits _ next => next.FailsOnly P
  | stalls _ => True

theorem failsOnly_iff_endsIn : (t : Job ω α) → (t.FailsOnly P ↔ t.EndsIn (fun _ => True) P)
  | settles _ (.ok _) => Iff.rfl
  | settles _ (.error _) => Iff.rfl
  | waits _ t => failsOnly_iff_endsIn t
  | stalls _ => Iff.rfl

theorem failsOnly_iff_run (t : Job ω α) :
    t.FailsOnly P ↔ ∀ error, t.run.2 = .failure error → P error := by
  rw [failsOnly_iff_endsIn, endsIn_iff_run]
  exact and_iff_right fun _ _ => trivial

end Job

namespace Attempt

/-- An attempt that gives a result fails as the result does. -/
theorem failsOnly_iff_of_result {x : Attempt ω (Rendered ω α)} {r : Rendered ω α}
    (h : x.result = .ok r) : x.toJob.FailsOnly P ↔ r.toJob.FailsOnly P := by
  rw [Job.failsOnly_iff_endsIn, Job.failsOnly_iff_endsIn, endsIn_iff_of_result h]

/-- Driven to its end, an attempt fails only with an error of its job. -/
theorem failsOnly_iff_settle (x : Attempt ω (Rendered ω α)) :
    x.toJob.FailsOnly P ↔ ∀ error,
      x.settle.2 = .refused error ∨ x.settle.2 = .polled (.failure error) → P error := by
  rw [Job.failsOnly_iff_endsIn, endsIn_iff_settle]
  exact and_iff_right fun _ _ => trivial

end Attempt

end MarkupTemplate
