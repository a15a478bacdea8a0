import MarkupTemplate.Proofs.Suspension.Ends

/-!
# Logs of jobs

The log of a job is the list of all events of its polls. What is composed of jobs has a log that
is composed of theirs. A step that follows a job adds its log to that of the job, if the job comes
to a value. Two jobs in rounds mix their logs, each in its own order. If one of them fails or
stalls, the other may be left before its end, so only a first part of its log is seen.

## Main definitions

* `MarkupTemplate.Job.log`, `MarkupTemplate.Job.value?` — the events of a job and its value.
* `MarkupTemplate.Interleaves` — a list that mixes two lists.

## Main results

* `MarkupTemplate.Job.log_andThen` — the log of a job with a step that follows it.
* `MarkupTemplate.Job.exists_interleaves_both` — the log of two jobs in rounds.
-/

namespace MarkupTemplate

variable {ω α β : Type}

/-! ### Lists that mix two lists -/

/-- The third list has the elements of the first two, those of each in their order. -/
inductive Interleaves : List ω → List ω → List ω → Prop where
  | nil : Interleaves [] [] []
  | left {a b l : List ω} (e : ω) : Interleaves a b l → Interleaves (e :: a) b (e :: l)
  | right {a b l : List ω} (e : ω) : Interleaves a b l → Interleaves a (e :: b) (e :: l)

namespace Interleaves

variable {a b l a' b' l' : List ω}

theorem all_left : (a : List ω) → Interleaves a [] a
  | [] => nil
  | e :: a => left e (all_left a)

theorem all_right : (b : List ω) → Interleaves [] b b
  | [] => nil
  | e :: b => right e (all_right b)

theorem append (h : Interleaves a b l) (h' : Interleaves a' b' l') :
    Interleaves (a ++ a') (b ++ b') (l ++ l') := by
  induction h with
  | nil => exact h'
  | left e _ ih => exact ih.left e
  | right e _ ih => exact ih.right e

theorem append_left (es : List ω) (h : Interleaves a b l) : Interleaves (es ++ a) b (es ++ l) :=
  (all_left es).append h

theorem append_right (es : List ω) (h : Interleaves a b l) : Interleaves a (es ++ b) (es ++ l) :=
  (all_right es).append h

/-- One list after the other is one way to mix them. -/
theorem of_append (a b : List ω) : Interleaves a b (a ++ b) := by
  simpa using (all_left a).append (all_right b)

theorem symm (h : Interleaves a b l) : Interleaves b a l := by
  induction h with
  | nil => exact nil
  | left e _ ih => exact ih.right e
  | right e _ ih => exact ih.left e

theorem perm (h : Interleaves a b l) : l.Perm (a ++ b) := by
  induction h with
  | nil => exact .nil
  | left e _ ih => exact ih.cons e
  | right e _ ih => exact (ih.cons e).trans List.perm_middle.symm

/-- An element of the mixed list comes from one of the two lists, and what stands before it there
stands before it in the mixed list. -/
theorem exists_of_split (h : Interleaves a b l) : ∀ {pre : List ω} {e : ω} {post : List ω},
    l = pre ++ e :: post →
      (∃ p q, a = p ++ e :: q ∧ p ⊆ pre) ∨ ∃ p q, b = p ++ e :: q ∧ p ⊆ pre := by
  induction h with
  | nil => exact fun h => absurd h.symm (by simp)
  | @left a b l e _ ih =>
    intro pre f post hl
    rcases pre with _ | ⟨g, pre⟩
    · obtain ⟨rfl, -⟩ := List.cons.inj hl
      exact .inl ⟨[], a, rfl, List.nil_subset _⟩
    · obtain ⟨rfl, hrest⟩ := List.cons.inj hl
      refine (ih hrest).imp ?_ ?_
      · rintro ⟨p, q, rfl, hp⟩
        exact ⟨e :: p, q, rfl, List.cons_subset_cons e hp⟩
      · rintro ⟨p, q, rfl, hp⟩
        exact ⟨p, q, rfl, List.subset_cons_of_subset e hp⟩
  | @right a b l e _ ih =>
    intro pre f post hl
    rcases pre with _ | ⟨g, pre⟩
    · obtain ⟨rfl, -⟩ := List.cons.inj hl
      exact .inr ⟨[], b, rfl, List.nil_subset _⟩
    · obtain ⟨rfl, hrest⟩ := List.cons.inj hl
      refine (ih hrest).imp ?_ ?_
      · rintro ⟨p, q, rfl, hp⟩
        exact ⟨p, q, rfl, List.subset_cons_of_subset e hp⟩
      · rintro ⟨p, q, rfl, hp⟩
        exact ⟨e :: p, q, rfl, List.cons_subset_cons e hp⟩

end Interleaves

/-! ### Logs -/

namespace Job

/-- The events of all polls of a job. -/
def log (t : Job ω α) : List ω := t.run.1

/-- The value that a job comes to, if its polls lead to one. -/
def value? (t : Job ω α) : Option α := t.run.2.value?

@[simp] theorem log_settles (poll : Poll ω) (result : Except Error α) :
    (settles poll result).log = poll.events := by
  cases result <;> rfl

@[simp] theorem log_waits (events : List ω) (t : Job ω α) :
    (waits events t).log = events ++ t.log := rfl

@[simp] theorem log_stalls (poll : Poll ω) : (stalls poll : Job ω α).log = poll.events := rfl

@[simp] theorem value?_settles_ok (poll : Poll ω) (a : α) :
    (settles poll (.ok a)).value? = some a := rfl

@[simp] theorem value?_settles_error (poll : Poll ω) (error : Error) :
    (settles poll (.error error) : Job ω α).value? = none := rfl

@[simp] theorem value?_waits (events : List ω) (t : Job ω α) :
    (waits events t).value? = t.value? := rfl

@[simp] theorem value?_stalls (poll : Poll ω) : (stalls poll : Job ω α).value? = none := rfl

@[simp] theorem log_settled (events : List ω) (result : Except Error α) :
    (settled events result).log = events := log_settles _ result

@[simp] theorem log_prepend (poll : Poll ω) : (t : Job ω α) →
    (t.prepend poll).log = poll.events ++ t.log
  | settles p result => by simp [prepend]
  | waits events t => List.append_assoc ..
  | stalls _ => rfl

@[simp] theorem value?_prepend (poll : Poll ω) : (t : Job ω α) →
    (t.prepend poll).value? = t.value?
  | settles _ (.ok _) => rfl
  | settles _ (.error _) => rfl
  | waits .. => rfl
  | stalls _ => rfl

@[simp] theorem log_map (f : α → β) : (t : Job ω α) → (t.map f).log = t.log
  | settles _ (.ok _) => rfl
  | settles _ (.error _) => rfl
  | waits events t => congrArg (events ++ ·) (log_map f t)
  | stalls _ => rfl

@[simp] theorem value?_map (f : α → β) : (t : Job ω α) → (t.map f).value? = t.value?.map f
  | settles _ (.ok _) => rfl
  | settles _ (.error _) => rfl
  | waits _ t => value?_map f t
  | stalls _ => rfl

@[simp] theorem log_starve : (t : Job ω α) → (t.starve : Job ω β).log = t.log
  | settles _ (.ok _) => rfl
  | settles _ (.error _) => rfl
  | waits events t => congrArg (events ++ ·) (log_starve t)
  | stalls _ => rfl

@[simp] theorem value?_starve : (t : Job ω α) → (t.starve : Job ω β).value? = none
  | settles _ (.ok _) => rfl
  | settles _ (.error _) => rfl
  | waits _ t => value?_starve t
  | stalls _ => rfl

section Steps

variable (f : α → Attempt ω (Rendered ω β))

theorem log_andThen : (t : Job ω α) →
    (t.andThen f).log = t.log ++ (t.value?.elim [] fun a => (f a).toJob.log)
  | settles poll (.ok a) => log_prepend poll (f a).toJob
  | settles _ (.error _) => (List.append_nil _).symm
  | waits events t => by
      rw [andThen, log_waits, log_andThen t, log_waits, value?_waits, List.append_assoc]
  | stalls _ => (List.append_nil _).symm

theorem value?_andThen : (t : Job ω α) →
    (t.andThen f).value? = t.value?.bind fun a => (f a).toJob.value?
  | settles poll (.ok a) => value?_prepend poll (f a).toJob
  | settles _ (.error _) => rfl
  | waits _ t => value?_andThen t
  | stalls _ => rfl

end Steps

/-- The log of two jobs in rounds mixes first parts of their logs. These are the whole logs, and
both jobs have their values, if the join has a value. -/
theorem exists_interleaves_both : (t : Job ω α) → (u : Job ω β) →
    ∃ a b, a <+: t.log ∧ b <+: u.log ∧ Interleaves a b (both t u).log ∧
      ∀ p, (both t u).value? = some p →
        a = t.log ∧ b = u.log ∧ t.value? = some p.1 ∧ u.value? = some p.2
  | settles poll (.error error), u =>
      ⟨poll.events, [], List.prefix_rfl, List.nil_prefix, .all_left _, nofun⟩
  | settles poll (.ok a), u => by
      refine ⟨poll.events, u.log, List.prefix_rfl, List.prefix_rfl, ?_, fun p hp => ?_⟩
      · rw [both, log_prepend, log_map]
        exact .of_append _ _
      · rw [both, value?_prepend, value?_map, Option.map_eq_some_iff] at hp
        obtain ⟨b, hb, rfl⟩ := hp
        exact ⟨rfl, rfl, rfl, hb⟩
  | stalls poll, u => by
      refine ⟨poll.events, u.log, List.prefix_rfl, List.prefix_rfl, ?_, fun p hp => ?_⟩
      · rw [both, log_prepend, log_starve]
        exact .of_append _ _
      · rw [both, value?_prepend, value?_starve] at hp
        cases hp
  | waits events t, settles poll (.error error) =>
      ⟨events, poll.events, List.prefix_append .., List.prefix_rfl, .of_append _ _, nofun⟩
  | waits events t, settles poll (.ok b) => by
      refine ⟨events ++ t.log, poll.events, List.prefix_rfl, List.prefix_rfl, ?_, fun p hp => ?_⟩
      · rw [both, log_waits, log_map, List.append_assoc]
        exact .append_left _ (.symm (.of_append _ _))
      · rw [both, value?_waits, value?_map, Option.map_eq_some_iff] at hp
        obtain ⟨a, ha, rfl⟩ := hp
        exact ⟨rfl, rfl, ha, rfl⟩
  | waits events t, stalls poll => by
      refine ⟨events ++ t.log, poll.events, List.prefix_rfl, List.prefix_rfl, ?_, fun p hp => ?_⟩
      · rw [both, log_waits, log_starve, List.append_assoc]
        exact .append_left _ (.symm (.of_append _ _))
      · rw [both, value?_waits, value?_starve] at hp
        cases hp
  | waits events t, waits es u => by
      obtain ⟨a, b, ha, hb, hl, hv⟩ := exists_interleaves_both t u
      refine ⟨events ++ a, es ++ b, (List.prefix_append_right_inj events).mpr ha,
        (List.prefix_append_right_inj es).mpr hb, ?_, fun p hp => ?_⟩
      · rw [both, log_waits, List.append_assoc]
        exact (hl.append_right es).append_left events
      · obtain ⟨rfl, rfl, h⟩ := hv p hp
        exact ⟨rfl, rfl, h⟩

end Job

/-! ### Logs of attempts -/

namespace Attempt

/-- The events of an attempt that is polled to its end are the log of its job. -/
theorem settle_events : (x : Attempt ω (Rendered ω α)) → x.settle.1 = x.toJob.log
  | ⟨_, .error _⟩ => rfl
  | ⟨_, .ok (.ready _)⟩ => rfl
  | ⟨events, .ok (.pending t)⟩ => (Job.log_prepend (.ofEvents events) t).symm

/-- The value of an attempt that is polled to its end is that of its job. -/
theorem settle_value? : (x : Attempt ω (Rendered ω α)) → x.settle.2.value? = x.toJob.value?
  | ⟨_, .error _⟩ => rfl
  | ⟨_, .ok (.ready _)⟩ => rfl
  | ⟨events, .ok (.pending t)⟩ => (Job.value?_prepend (.ofEvents events) t).symm

theorem toJob_mk_ok (events : List ω) : (r : Rendered ω α) →
    (⟨events, .ok r⟩ : Attempt ω (Rendered ω α)).toJob = r.toJob.prepend (.ofEvents events)
  | .ready _ => congrArg (Job.settles · _) (Poll.append_silent (.ofEvents events)).symm
  | .pending _ => rfl

theorem toJob_succeed (r : Rendered ω α) : (succeed r).toJob = r.toJob :=
  (toJob_mk_ok [] r).trans (Job.prepend_silent r.toJob)

theorem toJob_prepend (events : List ω) : (x : Attempt ω (Rendered ω α)) →
    (x.prepend events).toJob = x.toJob.prepend (.ofEvents events)
  | ⟨_, .error _⟩ => rfl
  | ⟨es, .ok r⟩ => by
      rw [prepend, toJob_mk_ok, toJob_mk_ok, Job.prepend_prepend]
      rfl

end Attempt

end MarkupTemplate
