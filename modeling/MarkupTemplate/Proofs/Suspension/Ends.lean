import MarkupTemplate.Proofs.Suspension.AttemptLaws

/-!
# What jobs come to

A job comes to a value, or it comes to nothing, which means that it fails at some time. A job that
stalls does neither. Which error a failing job ends with may depend on the order in which its
parts settle, so errors are left out. What a composed job comes to is then a function of what its
parts come to, in whatever polls these settle.

## Main definitions

* `MarkupTemplate.Job.ComesTo` — the end of a job without its error.
* `MarkupTemplate.Rendered.AllComeTo` — the ends of a list of results.

## Main results

* `MarkupTemplate.Job.comesTo_both`, `MarkupTemplate.Job.comesTo_andThen`,
  `MarkupTemplate.Rendered.comesTo_joinAll` — the ends of composed jobs.
* `MarkupTemplate.Attempt.comesTo_iff_settle` — the end of an attempt that is polled to its end.
-/

namespace MarkupTemplate

variable {ω α β : Type}

/-! ### Jobs -/

namespace Job

/-- The job settles: with the value, or with an error if there is none. -/
def ComesTo (a? : Option α) : Job ω α → Prop
  | settles _ (.ok a) => a? = some a
  | settles _ (.error _) => a? = none
  | waits _ next => next.ComesTo a?
  | stalls _ => False

@[simp] theorem comesTo_prepend {a? : Option α} (p : Poll ω) : (t : Job ω α) →
    (t.prepend p).ComesTo a? ↔ t.ComesTo a?
  | settles _ (.ok _) => Iff.rfl
  | settles _ (.error _) => Iff.rfl
  | waits _ _ => Iff.rfl
  | stalls _ => Iff.rfl

theorem comesTo_map (f : α → β) {a? : Option α} : (t : Job ω α) → t.ComesTo a? →
    (t.map f).ComesTo (a?.map f)
  | settles _ (.ok _), h => by
      cases h
      rfl
  | settles _ (.error _), h => by
      cases h
      rfl
  | waits _ t, h => comesTo_map f t h

/-- Two jobs in rounds come to a pair if both come to a value, and otherwise to nothing. -/
theorem comesTo_both {a? : Option α} {b? : Option β} : (t : Job ω α) → (u : Job ω β) →
    t.ComesTo a? → u.ComesTo b? →
      (both t u).ComesTo (a?.bind fun a => b?.map fun b => (a, b))
  | settles _ (.error _), _, ht, _ => by
      cases ht
      rfl
  | settles poll (.ok a), u, ht, hu => by
      cases ht
      exact (comesTo_prepend poll _).mpr (comesTo_map (fun b => (a, b)) u hu)
  | waits _ _, settles _ (.error _), _, hu => by
      cases hu
      exact Option.bind_fun_none a?
  | waits _ t, settles _ (.ok b), ht, hu => by
      cases hu
      have hm : a?.map (fun a => (a, b)) = a?.bind fun a => some (a, b) :=
        Option.map_eq_bind
      exact hm ▸ comesTo_map (fun a => (a, b)) t ht
  | waits _ t, waits _ u, ht, hu => comesTo_both t u ht hu

/-- A step that follows a job decides what comes of its value. -/
theorem comesTo_andThen {f : α → Attempt ω (Rendered ω β)} {g : α → Option β} {a? : Option α}
    (hf : ∀ a, (f a).toJob.ComesTo (g a)) : (t : Job ω α) → t.ComesTo a? →
      (t.andThen f).ComesTo (a?.bind g)
  | settles poll (.ok a), h => by
      cases h
      exact (comesTo_prepend poll _).mpr (hf a)
  | settles _ (.error _), h => by
      cases h
      rfl
  | waits _ t, h => comesTo_andThen hf t h

end Job

/-! ### Results -/

namespace Rendered

/-- The results of a list all settle: with the values of a list, or with an error among them if
there is none. -/
def AllComeTo (a? : Option (List α)) : List (Rendered ω α) → Prop
  | [] => a? = some []
  | r :: rs => ∃ head? tail?, r.toJob.ComesTo head? ∧ AllComeTo tail? rs ∧
      a? = head?.bind fun a => tail?.map fun as => a :: as

theorem comesTo_joinRounds {a? : Option (List α)} : {rs : List (Rendered ω α)} →
    AllComeTo a? rs → (Job.joinRounds (rs.map toJob)).ComesTo a?
  | [], h => h
  | r :: rs, ⟨head?, tail?, hr, hrs, he⟩ => by
      have hb := Job.comesTo_both _ _ hr (comesTo_joinRounds hrs)
      have hm := Job.comesTo_map (fun p : α × List α => p.1 :: p.2) _ hb
      have hs : a? = (head?.bind fun a => tail?.map fun as => (a, as)).map
          fun p => p.1 :: p.2 := by
        rw [he]
        cases head? <;> cases tail? <;> rfl
      exact hs ▸ hm

/-- A join in rounds comes to the list of values, or to nothing if one of the results does. -/
theorem comesTo_joinAll {a? : Option (List α)} {rs : List (Rendered ω α)}
    (hl : IsRoundJoin rs) (h : AllComeTo a? rs) : (joinAll rs).toJob.ComesTo a? := by
  rw [toJob_joinAll hl]
  exact comesTo_joinRounds h

theorem toJob_andThen (f : α → Attempt ω (Rendered ω β)) : (r : Rendered ω α) →
    (r.andThen f).toJob = r.toJob.andThen f
  | ready a => (Job.prepend_silent (f a).toJob).symm
  | pending t => Job.prepend_silent (t.andThen f)

end Rendered

/-! ### Attempts -/

/-- The value that a result ends with. -/
def Outcome.value? : Outcome α → Option α
  | value a => some a
  | failure _ => none
  | stuck => none

/-- The value that an attempt ends with. -/
def Settlement.value? : Settlement α → Option α
  | refused _ => none
  | ready a => some a
  | polled outcome => outcome.value?

/-- The attempt fails, at once or later. -/
def Settlement.Fails : Settlement α → Prop
  | refused _ => True
  | ready _ => False
  | polled (.value _) => False
  | polled (.failure _) => True
  | polled .stuck => False

/-- Polls of a job lead to what it comes to. -/
theorem Job.comesTo_iff_run {a? : Option α} : (t : Job ω α) →
    t.ComesTo a? ↔ t.run.2 ≠ .stuck ∧ t.run.2.value? = a?
  | settles _ (.ok _) => by simp [ComesTo, run, Outcome.value?, eq_comm]
  | settles _ (.error _) => by simp [ComesTo, run, Outcome.value?, eq_comm]
  | waits _ t => comesTo_iff_run t
  | stalls _ => by simp [ComesTo, run]

/-- An attempt at a result is stuck, or it ends with what its job comes to. -/
theorem Attempt.comesTo_iff_settle {a? : Option α} (x : Attempt ω (Rendered ω α)) :
    x.toJob.ComesTo a? ↔ x.settle.2 ≠ .polled .stuck ∧ x.settle.2.value? = a? := by
  rcases x with ⟨events, error | a | t⟩
  · simp [toJob, settle, Job.settled, Job.ComesTo, Settlement.value?, eq_comm]
  · simp [toJob, settle, Job.settled, Job.ComesTo, Settlement.value?, eq_comm]
  · have h : (t.prepend (.ofEvents events)).ComesTo a? ↔ t.run.2 ≠ .stuck ∧ t.run.2.value? = a? :=
      (Job.comesTo_prepend _ t).trans (Job.comesTo_iff_run t)
    simpa [toJob, settle, Settlement.value?] using h

/-- What settles without a value has failed. -/
theorem Settlement.fails_iff : (s : Settlement α) →
    s.Fails ↔ s ≠ .polled .stuck ∧ s.value? = none
  | refused _ => by simp [Fails, value?]
  | ready _ => by simp [Fails, value?]
  | polled (.value _) => by simp [Fails, value?, Outcome.value?]
  | polled (.failure _) => by simp [Fails, value?, Outcome.value?]
  | polled .stuck => by simp [Fails]

end MarkupTemplate
