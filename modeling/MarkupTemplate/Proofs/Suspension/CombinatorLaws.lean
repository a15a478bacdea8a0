import MarkupTemplate.Proofs.Suspension.Logs

/-!
# Laws of the combinators

Changing a value, going on with a step and joining obey the laws of an algebra. All laws are
equations between results or between attempts at results, and equal results are ready with the same
value or pending with the same job, whose polls record the same events, are of the same number and
lead to the same end.

Joining is associative because two jobs in rounds do not care how they are grouped. The cases in
which one of them has stalled come down to one fact: starving a part of a join starves the join.

## Main results

* `MarkupTemplate.Job.both_assoc` — three jobs in rounds.
* `MarkupTemplate.Job.joinRounds_append` — rounds of the jobs of two lists.
* `MarkupTemplate.Job.andThen_andThen` — two steps after a job.
* `MarkupTemplate.Rendered.combinator_laws` — the laws of `mapRecording`, `map`, `andThen` and
  `joinAll`.
-/

namespace MarkupTemplate

variable {ω α β γ δ : Type}

namespace Job

/-! ### Starved jobs -/

@[simp] theorem map_id' : (t : Job ω α) → (t.map fun a => a) = t
  | settles _ (.ok _) => rfl
  | settles _ (.error _) => rfl
  | waits events next => congrArg (waits events) (map_id' next)
  | stalls _ => rfl

@[simp] theorem starve_starve : (t : Job ω α) →
    ((t.starve : Job ω β).starve : Job ω γ) = t.starve
  | settles _ (.ok _) => rfl
  | settles _ (.error _) => rfl
  | waits events next => congrArg (waits events) (starve_starve next)
  | stalls _ => rfl

@[simp] theorem starve_prepend (p : Poll ω) : (t : Job ω α) →
    ((t.prepend p).starve : Job ω β) = t.starve.prepend p
  | settles _ (.ok _) => rfl
  | settles _ (.error _) => rfl
  | waits .. => rfl
  | stalls _ => rfl

/-- A join whose left part cannot settle well cannot either. -/
theorem both_starve_left : (t : Job ω α) → (u : Job ω β) →
    both (t.starve : Job ω γ) u = (both t u).starve
  | settles _ (.error _), _ => rfl
  | settles _ (.ok _), _ => by simp only [starve, both, starve_prepend, starve_map]
  | stalls _, _ => by simp only [starve, both, starve_prepend, starve_starve]
  | waits _ _, settles _ (.error _) => rfl
  | waits _ t, settles _ (.ok b) => by simp only [starve, both, starve_map, map_starve]
  | waits events t, waits es u => congrArg (waits (events ++ es)) (both_starve_left t u)
  | waits _ t, stalls _ => by simp only [starve, both, starve_starve]

/-- A join whose right part cannot settle well cannot either. -/
theorem both_starve_right : (t : Job ω α) → (u : Job ω β) →
    both t (u.starve : Job ω γ) = (both t u).starve
  | settles _ (.error _), _ => rfl
  | settles _ (.ok _), _ => by simp only [both, map_starve, starve_prepend, starve_map]
  | stalls _, _ => by simp only [both, starve_prepend, starve_starve]
  | waits _ _, settles _ (.error _) => rfl
  | waits _ t, settles _ (.ok b) => by simp only [starve, both, starve_map]
  | waits events t, waits es u => congrArg (waits (events ++ es)) (both_starve_right t u)
  | waits _ t, stalls _ => by simp only [starve, both, starve_starve]

/-! ### Three jobs in rounds -/

/-- The value of the left job may be changed before or after the join. -/
theorem both_map_left (f : α → γ) : (t : Job ω α) → (u : Job ω β) →
    both (t.map f) u = (both t u).map fun p => (f p.1, p.2)
  | settles _ (.error _), _ => rfl
  | settles _ (.ok _), _ => by simp only [Job.map, both, map_prepend, map_map]
  | stalls _, _ => by simp only [Job.map, both, map_prepend, map_starve]
  | waits _ _, settles _ (.error _) => rfl
  | waits _ t, settles _ (.ok b) => by simp only [Job.map, both, map_map]
  | waits events t, waits es u => congrArg (waits (events ++ es)) (both_map_left f t u)
  | waits _ t, stalls _ => by simp only [Job.map, both, starve_map, map_starve]

/-- A record before the first poll of the left job stands before that of the join. -/
theorem both_prepend_left (p : Poll ω) : (t : Job ω α) → (u : Job ω β) →
    both (t.prepend p) u = (both t u).prepend p
  | settles _ (.error _), _ => rfl
  | settles q (.ok _), _ => (prepend_prepend p q _).symm
  | stalls q, _ => (prepend_prepend p q _).symm
  | waits es t, settles q (.error _) => by
      refine congrArg (settles · _) (Poll.ext ?_ ?_)
      · exact List.append_assoc ..
      · exact (Bool.or_true p.woken).symm
  | waits _ t, settles _ (.ok b) => congrArg (waits · _) (List.append_assoc ..)
  | waits _ t, waits _ u => congrArg (waits · _) (List.append_assoc ..)
  | waits _ t, stalls _ => congrArg (waits · _) (List.append_assoc ..)

/-- A record before the first poll of the right job stands behind that of a left job that waits. -/
theorem both_waits_prepend (events : List ω) (t : Job ω α) (p : Poll ω) : (u : Job ω β) →
    both (waits events t) (u.prepend p) = both (waits (events ++ p.events) t) u
  | settles _ (.error _) => by
      refine congrArg (settles · _) (Poll.ext ?_ rfl)
      exact (List.append_assoc ..).symm
  | settles _ (.ok _) => congrArg (waits · _) (List.append_assoc ..).symm
  | waits .. => congrArg (waits · _) (List.append_assoc ..).symm
  | stalls _ => congrArg (waits · _) (List.append_assoc ..).symm

/-- Three jobs in rounds may be grouped in either way. -/
theorem both_assoc : (t : Job ω α) → (u : Job ω β) → (v : Job ω γ) →
    both (both t u) v = (both t (both u v)).map fun p => ((p.1, p.2.1), p.2.2)
  | settles _ (.error _), _, _ => rfl
  | settles _ (.ok _), _, _ => by
      simp only [both, both_prepend_left, both_map_left, map_prepend, map_map]
  | stalls _, _, _ => by
      simp only [both, both_prepend_left, both_starve_left, map_prepend, map_starve]
  | waits _ _, settles _ (.error _), _ => rfl
  | waits events t, settles p (.ok b), v => by
      rw [both, both, both_waits_prepend, both_map_right, map_map]
      exact both_map_left (fun a => (a, b)) (waits (events ++ p.events) t) v
  | waits events t, stalls p, v => by
      rw [both, both, both_waits_prepend, both_starve_right, map_starve]
      exact both_starve_left (waits (events ++ p.events) t) v
  | waits _ _, waits _ _, settles _ (.error _) => by
      refine congrArg (settles · _) (Poll.ext ?_ rfl)
      exact List.append_assoc ..
  | waits _ t, waits _ u, settles _ (.ok c) => by
      simp only [both, both_map_right, Job.map, map_map, List.append_assoc]
  | waits _ t, waits _ u, waits _ v => by
      simp only [both, Job.map, both_assoc t u v, List.append_assoc]
  | waits _ t, waits _ u, stalls _ => by
      simp only [both, both_starve_right, Job.map, map_starve, List.append_assoc]

/-- The jobs of two lists in a row are polled as two joins side by side. -/
theorem joinRounds_append (us : List (Job ω α)) : (ts : List (Job ω α)) →
    joinRounds (ts ++ us) = (both (joinRounds ts) (joinRounds us)).map fun p => p.1 ++ p.2
  | [] => by
      rw [joinRounds, both_settled_left, map_map]
      exact (map_id' (joinRounds us)).symm
  | t :: ts => by
      rw [List.cons_append, joinRounds, joinRounds_append us ts, both_map_right, joinRounds,
        both_map_left, both_assoc]
      simp only [map_map, List.cons_append]

end Job

/-! ### Steps after a job -/

theorem Attempt.toJob_bind_andThen (g : β → Attempt ω (Rendered ω γ)) :
    (x : Attempt ω (Rendered ω β)) → (x >>= fun r => r.andThen g).toJob = x.toJob.andThen g
  | ⟨_, .error _⟩ => rfl
  | ⟨events, .ok (.ready b)⟩ => toJob_prepend events (g b)
  | ⟨events, .ok (.pending u)⟩ => by
      rw [bind_mk_ok, toJob_prepend, Rendered.andThen, toJob_succeed, toJob_mk_ok, Rendered.toJob,
        Rendered.toJob, Job.prepend_andThen]

/-- Two steps after a job may be taken as one. -/
theorem Job.andThen_andThen (f : α → Attempt ω (Rendered ω β)) (g : β → Attempt ω (Rendered ω γ)) :
    (t : Job ω α) → (t.andThen f).andThen g = t.andThen fun a => f a >>= fun r => r.andThen g
  | settles poll (.ok a) => by
      rw [andThen, andThen, prepend_andThen, Attempt.toJob_bind_andThen]
  | settles _ (.error _) => rfl
  | waits events t => congrArg (waits events) (andThen_andThen f g t)
  | stalls _ => rfl

/-- Changing the value of a job is a step that is ready at once. -/
theorem Job.mapRecording_eq_andThen (f : α → List ω × β) : (t : Job ω α) →
    t.mapRecording f = t.andThen fun a => ⟨(f a).1, .ok (.ready (f a).2)⟩
  | settles _ (.ok _) => rfl
  | settles _ (.error _) => rfl
  | waits events t => congrArg (waits events) (mapRecording_eq_andThen f t)
  | stalls _ => rfl

/-- A function that records nothing changes the value alone. -/
theorem Job.mapRecording_silent (f : α → β) : (t : Job ω α) →
    (t.mapRecording fun a => ([], f a)) = t.map f
  | settles poll (.ok a) => congrArg (settles · (.ok (f a))) (Poll.append_silent poll)
  | settles _ (.error _) => rfl
  | waits events t => congrArg (waits events) (mapRecording_silent f t)
  | stalls _ => rfl

/-! ### The laws -/

namespace Rendered

theorem readyAll?_append (ss : List (Rendered ω α)) : (rs : List (Rendered ω α)) →
    readyAll? (rs ++ ss) = (readyAll? rs).bind fun as => (readyAll? ss).map fun bs => as ++ bs
  | [] => by
      rw [readyAll?, Option.bind_some]
      exact Option.map_id'.symm
  | pending _ :: _ => rfl
  | ready a :: rs => by
      rw [List.cons_append, readyAll?, readyAll?_append ss rs, readyAll?]
      cases readyAll? rs <;> cases readyAll? ss <;> rfl

theorem readyAll?_pair (r s : Rendered ω α) :
    readyAll? [r, s] = r.ready?.bind fun a => s.ready?.map fun b => [a, b] := by
  cases r <;> cases s <;> rfl

theorem succeed_map (f : α → β) : (r : Rendered ω α) →
    .succeed (r.map f) = r.andThen fun a => .succeed (ready (f a))
  | ready _ => rfl
  | pending t => by
      rw [map, andThen, ← Job.mapRecording_silent, Job.mapRecording_eq_andThen]
      rfl

theorem mapRecording_eq_andThen (f : α → List ω × β) : (r : Rendered ω α) →
    r.mapRecording f = r.andThen fun a => ⟨(f a).1, .ok (ready (f a).2)⟩
  | ready _ => rfl
  | pending t => by rw [mapRecording, Job.mapRecording_eq_andThen, andThen]

theorem andThen_andThen (f : α → Attempt ω (Rendered ω β)) (g : β → Attempt ω (Rendered ω γ)) :
    (r : Rendered ω α) →
    (r.andThen f >>= fun s => s.andThen g) = r.andThen fun a => f a >>= fun s => s.andThen g
  | ready _ => rfl
  | pending t => by
      rw [andThen, andThen, Attempt.succeed_bind, andThen, Job.andThen_andThen]

/-- A join may be made of the joins of two parts. -/
theorem joinAll_append {rs ss : List (Rendered ω α)} (h : (rs ++ ss).length ≤ Job.roundLimit) :
    joinAll (rs ++ ss) = (joinAll [joinAll rs, joinAll ss]).map List.flatten := by
  have hl : rs.length + ss.length ≤ Job.roundLimit := List.length_append ▸ h
  have hrs : IsRoundJoin rs := .inl (by omega)
  have hss : IsRoundJoin ss := .inl (by omega)
  refine ext_of_views ?_ ?_
  · rw [ready?_map, ready?_joinAll, ready?_joinAll, readyAll?_append, readyAll?_pair,
      ready?_joinAll, ready?_joinAll]
    cases readyAll? rs <;> cases readyAll? ss <;> simp
  · have hpair : IsRoundJoin [joinAll rs, joinAll ss] := .inl (by simp [Job.roundLimit])
    rw [toJob_map, toJob_joinAll (.inl h), toJob_joinAll hpair, List.map_append,
      Job.joinRounds_append, ← toJob_joinAll hrs, ← toJob_joinAll hss]
    simp [Job.joinRounds, Job.both_map_right]

/-- **The laws of the combinators.** Changing a value is a step that is ready at once, steps may be
grouped in either way, and so may the items of a join that goes in rounds. -/
theorem combinator_laws {rs ss : List (Rendered ω α)} (h : (rs ++ ss).length ≤ Job.roundLimit)
    (r : Rendered ω α) (change : α → β) (report : α → List ω × β)
    (f : α → Attempt ω (Rendered ω γ)) (g : γ → Attempt ω (Rendered ω δ)) :
    .succeed (r.map change) = r.andThen (fun a => .succeed (ready (change a))) ∧
    r.mapRecording report = r.andThen (fun a => ⟨(report a).1, .ok (ready (report a).2)⟩) ∧
    (r.andThen f >>= fun s => s.andThen g) =
      r.andThen (fun a => f a >>= fun s => s.andThen g) ∧
    joinAll (rs ++ ss) = (joinAll [joinAll rs, joinAll ss]).map List.flatten :=
  ⟨succeed_map change r, mapRecording_eq_andThen report r, andThen_andThen f g r,
    joinAll_append h⟩

/-- The text `s`, which is there after `n` idle polls. -/
def later (n : Nat) (s : String) : Rendered String String :=
  pending ((Job.settled [s] (.ok s)).delay n)

/-- A step that records its input and answers after a poll. -/
def replyLater (s : String) : Attempt String (Rendered String String) :=
  ⟨[s], .ok (later 1 (s ++ "!"))⟩

/-- The laws for a result that comes late, a step that suspends before one that fails, and a join
of a ready item, a late one and one that fails. -/
theorem combinator_laws_late :
    ([ready "a", later 2 "b"] ++ [pending (.settled ["c"] (.error (.component "c")))]).length ≤
      Job.roundLimit ∧
    .succeed ((later 3 "d").map String.length) =
      (later 3 "d").andThen (fun s => .succeed (ready s.length)) ∧
    (later 3 "d").mapRecording (fun s => ([s], s.length)) =
      (later 3 "d").andThen (fun s => ⟨[s], .ok (ready s.length)⟩) ∧
    ((later 3 "d").andThen replyLater >>= fun s =>
        s.andThen fun s => (.fail (.component s) : Attempt String (Rendered String Nat))) =
      (later 3 "d").andThen (fun s => replyLater s >>= fun s =>
        s.andThen fun s => .fail (.component s)) ∧
    joinAll ([ready "a", later 2 "b"] ++ [pending (.settled ["c"] (.error (.component "c")))]) =
      (joinAll [joinAll [ready "a", later 2 "b"],
        joinAll [pending (.settled ["c"] (.error (.component "c")))]]).map List.flatten := by
  have h : ([ready "a", later 2 "b"] ++
      [pending (.settled ["c"] (.error (.component "c")))]).length ≤ Job.roundLimit := by
    decide
  exact ⟨h, combinator_laws h (later 3 "d") String.length (fun s => ([s], s.length)) replyLater
    fun s => .fail (.component s)⟩

end Rendered

end MarkupTemplate
