import MarkupTemplate.Proofs.Suspension.JobAlgebra

/-!
# Laws of attempts and of results

Attempts form a lawful monad, in which an error ends what follows it and keeps the events before
it. A result that may be pending is determined by two views: the value that is there already, and
the job that it amounts to. Joining results is joining under both views, as long as the join goes
in rounds or has nothing to wait for.

## Main results

* `MarkupTemplate.Attempt.instLawfulMonad` — the monad laws.
* `MarkupTemplate.Rendered.ext_of_views` — a result is its two views.
* `MarkupTemplate.Rendered.ready?_joinAll`, `MarkupTemplate.Rendered.toJob_joinAll` — the views of
  a join.
-/

namespace MarkupTemplate

variable {ω α β : Type}

/-! ### Values and errors -/

namespace Except

variable {ε : Type}

theorem bind_eq_ok_iff {x : Except ε α} {f : α → Except ε β} {b : β} :
    x >>= f = .ok b ↔ ∃ a, x = .ok a ∧ f a = .ok b := by
  cases x with
  | error error => exact iff_of_false (by nofun) (by nofun)
  | ok a => exact ⟨fun h => ⟨a, rfl, h⟩, fun ⟨_, ha, h⟩ => Except.ok.inj ha ▸ h⟩

theorem map_eq_ok_iff {x : Except ε α} {f : α → β} {b : β} :
    x.map f = .ok b ↔ ∃ a, x = .ok a ∧ f a = b := by
  cases x with
  | error error => exact iff_of_false (by nofun) (by nofun)
  | ok a => exact ⟨fun h => ⟨a, rfl, Except.ok.inj h⟩, fun ⟨_, ha, h⟩ => by cases ha; rw [← h]; rfl⟩

theorem eq_error_of_map {x : Except ε α} {f : α → β} {error : ε} (h : x.map f = .error error) :
    x = .error error := by
  cases x with
  | error error' =>
    cases h
    rfl
  | ok a => cases h

/-- Fails with the error of the first element that is faulty. -/
def firstError (faulty : α → Bool) (error : α → ε) (l : List α) : Except ε Unit :=
  match l.find? faulty with
  | some a => .error (error a)
  | none => .ok ()

theorem firstError_append (faulty : α → Bool) (error : α → ε) (l m : List α) :
    firstError faulty error (l ++ m) =
      firstError faulty error l >>= fun _ => firstError faulty error m := by
  rw [firstError, firstError, List.find?_append]
  rcases l.find? faulty with _ | a <;> rfl

end Except

/-! ### Attempts -/

namespace Attempt

theorem prepend_prepend (es fs : List ω) (x : Attempt ω α) :
    (x.prepend fs).prepend es = x.prepend (es ++ fs) :=
  congrArg (Attempt.mk · x.result) (List.append_assoc es fs x.events).symm

theorem succeed_bind (a : α) (f : α → Attempt ω β) : succeed a >>= f = f a := rfl

theorem bind_mk_ok (events : List ω) (a : α) (f : α → Attempt ω β) :
    (⟨events, .ok a⟩ : Attempt ω α) >>= f = (f a).prepend events := rfl

theorem prepend_bind (events : List ω) (f : α → Attempt ω β) : (x : Attempt ω α) →
    x.prepend events >>= f = (x >>= f).prepend events
  | ⟨es, .ok a⟩ => (prepend_prepend events es (f a)).symm
  | ⟨_, .error _⟩ => rfl

private theorem id_map_attempt : (x : Attempt ω α) → id <$> x = x
  | ⟨events, .ok _⟩ => congrArg (Attempt.mk · _) (List.append_nil events)
  | ⟨_, .error _⟩ => rfl

private theorem bind_assoc_attempt {γ : Type} (f : α → Attempt ω β) (g : β → Attempt ω γ) :
    (x : Attempt ω α) → x >>= f >>= g = x >>= fun a => f a >>= g
  | ⟨events, .ok a⟩ => prepend_bind events g (f a)
  | ⟨_, .error _⟩ => rfl

instance instLawfulMonad : LawfulMonad (Attempt ω) :=
  LawfulMonad.mk' (Attempt ω) id_map_attempt (fun _ _ => rfl) fun x f g => bind_assoc_attempt f g x

theorem result_bind_eq_ok_iff {x : Attempt ω α} {f : α → Attempt ω β} {b : β} :
    (x >>= f).result = .ok b ↔ ∃ a, x.result = .ok a ∧ (f a).result = .ok b := by
  rcases x with ⟨events, error | a⟩
  · exact iff_of_false (by nofun) (by nofun)
  · exact ⟨fun h => ⟨a, rfl, h⟩, fun ⟨_, ha, h⟩ => Except.ok.inj ha ▸ h⟩

/-- What is done with the value of an attempt is seen in its result alone. -/
theorem result_bind_pure (x : Attempt ω α) (f : α → β) :
    (x >>= fun a => pure (f a)).result = x.result.map f := by
  rcases x with ⟨events, error | a⟩ <;> rfl

end Attempt

/-! ### Results -/

namespace Rendered

@[simp] theorem toJob_ready (a : α) : (ready a : Rendered ω α).toJob = .settled [] (.ok a) := rfl

@[simp] theorem toJob_map (f : α → β) : (r : Rendered ω α) → (r.map f).toJob = r.toJob.map f
  | ready _ => rfl
  | pending _ => rfl

@[simp] theorem ready?_map (f : α → β) : (r : Rendered ω α) → (r.map f).ready? = r.ready?.map f
  | ready _ => rfl
  | pending _ => rfl

/-- Results that show the same value and amount to the same job are equal. -/
theorem ext_of_views {r s : Rendered ω α} (hv : r.ready? = s.ready?) (hj : r.toJob = s.toJob) :
    r = s := by
  cases r with
  | ready a =>
    cases s with
    | ready b => rw [Option.some.inj hv]
    | pending u => cases hv
  | pending t =>
    cases s with
    | ready b => cases hv
    | pending u => exact congrArg pending hj

theorem eq_ready_of_ready? {r : Rendered ω α} {a : α} (h : r.ready? = some a) : r = ready a := by
  cases r with
  | ready b => rw [Option.some.inj h]
  | pending t => cases h

/-- The results of a list are all there exactly if they are a list of ready results. -/
theorem readyAll?_eq_some_iff {rs : List (Rendered ω α)} {as : List α} :
    readyAll? rs = some as ↔ rs = as.map ready := by
  induction rs generalizing as with
  | nil => cases as <;> simp [readyAll?]
  | cons r rs ih =>
    cases r with
    | pending t => cases as <;> simp [readyAll?]
    | ready a =>
      cases as with
      | nil => simp [readyAll?]
      | cons b bs =>
        simp only [readyAll?, Option.map_eq_some_iff, List.map_cons, List.cons.injEq,
          ready.injEq, ih]
        constructor
        · rintro ⟨as, h, rfl, rfl⟩
          exact ⟨rfl, h⟩
        · rintro ⟨rfl, h⟩
          exact ⟨bs, h, rfl, rfl⟩

@[simp] theorem ready?_joinAll (rs : List (Rendered ω α)) : (joinAll rs).ready? = readyAll? rs := by
  rw [joinAll]
  split
  · rename_i as h
    exact h.symm
  · rename_i h
    exact h.symm

theorem isPending_map (f : α → β) : (r : Rendered ω α) → (r.map f).isPending = r.isPending
  | ready _ => rfl
  | pending _ => rfl

/-- A join waits exactly if one of its results does. -/
theorem isPending_joinAll (rs : List (Rendered ω α)) :
    (joinAll rs).isPending = rs.any isPending := by
  have h : (readyAll? rs).isSome = !rs.any isPending := by
    induction rs with
    | nil => rfl
    | cons r rs ih =>
      cases r with
      | ready a => simpa [readyAll?, isPending] using ih
      | pending t => simp [readyAll?, isPending]
  rw [joinAll]
  split
  · rename_i as hr
    simpa [hr, isPending] using h
  · rename_i hr
    simpa [hr, isPending] using h

/-- Whether a join goes in rounds, or has nothing to wait for. -/
def IsRoundJoin (rs : List (Rendered ω α)) : Prop :=
  rs.length ≤ Job.roundLimit ∨ (readyAll? rs).isSome

theorem toJob_joinAll {rs : List (Rendered ω α)} (h : IsRoundJoin rs) :
    (joinAll rs).toJob = Job.joinRounds (rs.map toJob) := by
  rw [joinAll]
  split
  · rename_i as hr
    have he : (as.map ready).map toJob = as.map fun a => (Job.settled [] (.ok a) : Job ω α) :=
      List.map_map
    rw [readyAll?_eq_some_iff.mp hr, he, Job.joinRounds_settled, toJob_ready]
  · rename_i hr
    have hl : rs.length ≤ Job.roundLimit := h.resolve_right (by simp [hr])
    rw [toJob, Job.joinAll, if_pos (by rwa [List.length_map])]

end Rendered

end MarkupTemplate
