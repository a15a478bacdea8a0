import MarkupTemplate.Proofs.Suspension.CombinatorLaws

/-!
# Joins round by round

A poll of a join that goes in rounds is a round over its items: every item that is still pending is
polled, in order, until one of them fails. What is left after a round in which none fails is the
join of the items as their polls left them. So whatever such a join does is read off its items,
each of which has an end of its own: the number of polls that it takes, with its value or its
failure.

Rounds are counted from one, and what is ready from the start has taken no poll. An item that
never settles takes part in every round and stops none of the others.

## Main definitions

* `MarkupTemplate.Job.poll` — one poll of a job.
* `MarkupTemplate.Rendered.ending?` — the number of polls to the end of a result, with its end.
* `MarkupTemplate.Rendered.round`, `MarkupTemplate.Rendered.visitsAfter` — a round of a join, and
  the items that a later round polls.
* `MarkupTemplate.Rendered.FirstFailure` — the item whose failure is the failure of the join.

## Main results

* `MarkupTemplate.Rendered.poll_joinAll` — a poll of a join is a round.
* `MarkupTemplate.Rendered.ending?_joinAll_of_values`,
  `MarkupTemplate.Rendered.ending?_joinAll_of_stuck`,
  `MarkupTemplate.Rendered.ending?_joinAll_of_failure` — the three ends of a join.
* `MarkupTemplate.Rendered.joinAll_rounds` — what a join does, from its items.
-/

namespace MarkupTemplate

variable {ω α β : Type}

/-! ### Polls -/

/-- One record of several polls in a row. -/
def Poll.total (polls : List (Poll ω)) : Poll ω := polls.foldr (· ++ ·) .silent

theorem Poll.total_append (ps qs : List (Poll ω)) :
    Poll.total (ps ++ qs) = Poll.total ps ++ Poll.total qs := by
  induction ps with
  | nil => rfl
  | cons p ps ih =>
    rw [List.cons_append, total, List.foldr_cons, ← total, ih, ← Poll.append_assoc]
    rfl

namespace Job

/-- A poll of a job: its record, with the failure or with what the poll makes of the job, which is
ready if it has settled. -/
def poll : Job ω α → Poll ω × Except Error (Rendered ω α)
  | settles p (.ok a) => (p, .ok (.ready a))
  | settles p (.error error) => (p, .error error)
  | waits events next => (⟨events, true⟩, .ok (.pending next))
  | stalls p => (p, .ok (.pending never))

/-- The number of polls after which a job settles, and its result, unless it stalls. -/
def ending? : Job ω α → Option (Nat × Except Error α)
  | settles _ result => some (1, result)
  | waits _ next => next.ending?.map fun p => (p.1 + 1, p.2)
  | stalls _ => none

@[simp] theorem poll_map (f : α → β) : (t : Job ω α) →
    (t.map f).poll = (t.poll.1, t.poll.2.map (Rendered.map f))
  | settles _ (.ok _) => rfl
  | settles _ (.error _) => rfl
  | waits .. => rfl
  | stalls _ => rfl

theorem both_never_right : (t : Job ω α) → both t (never : Job ω β) = t.starve
  | settles poll (.ok _) => congrArg stalls (Poll.append_silent poll)
  | settles _ (.error _) => rfl
  | waits events t => congrArg (waits · t.starve) (List.append_nil events)
  | stalls poll => congrArg stalls (Poll.append_silent poll)

theorem both_never_left (u : Job ω β) : both (never : Job ω α) u = u.starve :=
  prepend_silent u.starve

end Job

namespace Rendered

/-- The number of polls after which a result is settled, and what it comes to, unless it stalls.
What is ready has taken none. -/
def ending? : Rendered ω α → Option (Nat × Except Error α)
  | ready a => some (0, .ok a)
  | pending t => t.ending?

/-- Two results side by side. -/
def both : Rendered ω α → Rendered ω β → Rendered ω (α × β)
  | ready a, ready b => ready (a, b)
  | r, s => pending (Job.both r.toJob s.toJob)

theorem toJob_both : (r : Rendered ω α) → (s : Rendered ω β) →
    (r.both s).toJob = Job.both r.toJob s.toJob
  | ready _, ready _ => by simp [both]
  | ready _, pending _ => rfl
  | pending _, _ => rfl

theorem ready?_both : (r : Rendered ω α) → (s : Rendered ω β) →
    (r.both s).ready? = r.ready?.bind fun a => s.ready?.map fun b => (a, b)
  | ready _, ready _ => rfl
  | ready _, pending _ => rfl
  | pending _, _ => rfl

/-- A poll of two jobs in rounds polls the left job, and then the right one unless the left one
has failed. -/
theorem poll_both (t : Job ω α) (u : Job ω β) :
    (Job.both t u).poll =
      match t.poll with
      | (p, .error error) => (p, .error error)
      | (p, .ok r) => (p ++ u.poll.1, u.poll.2.map r.both) := by
  rcases t with ⟨p, error | a⟩ | ⟨events, t⟩ | p
  · rfl
  · rcases u with ⟨q, error | b⟩ | ⟨es, u⟩ | q
    · rfl
    · rfl
    · refine Prod.ext (Poll.ext rfl (Bool.or_true _).symm) ?_
      exact congrArg (Except.ok ∘ pending) (Job.both_settled_left a u).symm
    · rfl
  · rcases u with ⟨q, error | b⟩ | ⟨es, u⟩ | q
    · rfl
    · exact congrArg (Prod.mk _ ∘ Except.ok ∘ pending) (Job.both_settled_right b t).symm
    · rfl
    · exact congrArg (Prod.mk _ ∘ Except.ok ∘ pending) (Job.both_never_right t).symm
  · rcases u with ⟨q, error | b⟩ | ⟨es, u⟩ | q
    · rfl
    · rfl
    · refine Prod.ext (Poll.ext rfl (Bool.or_true _).symm) ?_
      exact congrArg (Except.ok ∘ pending) (Job.both_never_left u).symm
    · rfl

/-- A join is its first item beside the join of the others. -/
theorem joinAll_cons {r : Rendered ω α} {rs : List (Rendered ω α)}
    (h : (r :: rs).length ≤ Job.roundLimit) :
    joinAll (r :: rs) = (r.both (joinAll rs)).map fun p => p.1 :: p.2 := by
  have hrs : IsRoundJoin rs := .inl (Nat.le_of_succ_le h)
  refine ext_of_views ?_ ?_
  · rw [ready?_map, ready?_both, ready?_joinAll, ready?_joinAll]
    cases r with
    | ready a => cases hr : readyAll? rs <;> simp [readyAll?, ready?, hr]
    | pending t => rfl
  · rw [toJob_map, toJob_both, toJob_joinAll (.inl h), toJob_joinAll hrs]
    rfl

/-! ### Rounds -/

/-- What a round over the items of a join does. -/
structure Round (ω α : Type) where
  /-- The places of the items that are polled, in order, with the records of these polls. -/
  visits : List (Nat × Poll ω)
  /-- The items as the round leaves them, or the failure that ends it. -/
  left : Except Error (List (Rendered ω α))

/-- The records of a round as one. -/
def Round.record (round : Round ω α) : Poll ω := Poll.total (round.visits.map Prod.snd)

/-- Polls the pending items of a list, of which the first stands at `place`, up to the first
failure. -/
def round (place : Nat) : List (Rendered ω α) → Round ω α
  | [] => ⟨[], .ok []⟩
  | ready a :: rs =>
    ⟨(round (place + 1) rs).visits, (round (place + 1) rs).left.map (ready a :: ·)⟩
  | pending t :: rs =>
    match t.poll with
    | (poll, .error error) => ⟨[(place, poll)], .error error⟩
    | (poll, .ok r) =>
      ⟨(place, poll) :: (round (place + 1) rs).visits,
        (round (place + 1) rs).left.map (r :: ·)⟩

/-- What a poll makes of a result, unless it fails. -/
def next : Rendered ω α → Rendered ω α
  | ready a => ready a
  | pending t =>
    match t.poll.2 with
    | .ok r => r
    | .error _ => pending t

/-- The visit that a round pays to an item that stands at `place`, if the item is pending. -/
def visit (place : Nat) : Rendered ω α → List (Nat × Poll ω)
  | ready _ => []
  | pending t => [(place, t.poll.1)]

/-- The next poll fails with this error. -/
def FailsNext (r : Rendered ω α) (error : Error) : Prop := r.ending? = some (1, .error error)

/-- The next poll does not fail. -/
def Passes (r : Rendered ω α) : Prop := ∀ error, ¬ r.FailsNext error

theorem passes_or_failsNext (r : Rendered ω α) : r.Passes ∨ ∃ error, r.FailsNext error :=
  (Classical.em (∃ error, r.FailsNext error)).symm.imp_left not_exists.mp

/-- A job whose next poll fails ends with that. Otherwise it ends as what the poll makes of it,
one poll later. -/
theorem ending?_pending : (t : Job ω α) →
    (pending t).ending? =
      match t.poll.2 with
      | .error error => some (1, .error error)
      | .ok r => r.ending?.map fun p => (p.1 + 1, p.2)
  | .settles _ (.ok _) => rfl
  | .settles _ (.error _) => rfl
  | .waits .. => rfl
  | .stalls _ => rfl

/-- Nothing that is pending ends without a poll. -/
theorem pos_of_ending?_pending {t : Job ω α} {n : Nat} {result : Except Error α}
    (h : (pending t).ending? = some (n, result)) : 0 < n := by
  rw [ending?_pending] at h
  split at h
  · cases h
    exact Nat.one_pos
  · obtain ⟨_, _, h⟩ := Option.map_eq_some_iff.mp h
    exact (Prod.mk.inj h).1 ▸ Nat.succ_pos _

/-- Nothing that is ready fails. -/
theorem pos_of_ending?_error {r : Rendered ω α} {n : Nat} {error : Error}
    (h : r.ending? = some (n, .error error)) : 0 < n := by
  cases r with
  | ready a => cases h
  | pending t => exact pos_of_ending?_pending h

theorem poll_toJob {r : Rendered ω α} (h : r.Passes) (place : Nat) :
    r.toJob.poll = (Poll.total ((r.visit place).map Prod.snd), .ok r.next) := by
  cases r with
  | ready a => rfl
  | pending t =>
    refine Prod.ext (Poll.append_silent _).symm ?_
    show t.poll.2 = .ok (pending t).next
    rw [next]
    cases ht : t.poll.2 with
    | ok r => rfl
    | error error => exact absurd (by rw [FailsNext, ending?_pending, ht]) (h error)

theorem poll_toJob_of_failsNext {r : Rendered ω α} {error : Error} (h : r.FailsNext error)
    (place : Nat) : r.toJob.poll = (Poll.total ((r.visit place).map Prod.snd), .error error) := by
  cases r with
  | ready a => cases h
  | pending t =>
    refine Prod.ext (Poll.append_silent _).symm ?_
    show t.poll.2 = .error error
    rw [FailsNext, ending?_pending] at h
    split at h
    · rename_i error' ht
      cases h
      exact ht
    · obtain ⟨⟨n, result⟩, hr, h⟩ := Option.map_eq_some_iff.mp h
      cases h
      exact absurd (pos_of_ending?_error hr) (Nat.lt_irrefl 0)

/-- A poll that does not fail brings the end nearer by one. -/
theorem ending?_next {r : Rendered ω α} (h : r.Passes) :
    r.next.ending? = r.ending?.map fun p => (p.1 - 1, p.2) := by
  cases r with
  | ready a => rfl
  | pending t =>
    have ht : t.poll = _ := poll_toJob h 0
    rw [ending?_pending, ht, Option.map_map]
    exact Option.map_id'.symm

theorem round_cons {r : Rendered ω α} (h : r.Passes) (place : Nat) (rs : List (Rendered ω α)) :
    round place (r :: rs) =
      ⟨r.visit place ++ (round (place + 1) rs).visits,
        (round (place + 1) rs).left.map (r.next :: ·)⟩ := by
  cases r with
  | ready a => rfl
  | pending t =>
    obtain ⟨p, hp⟩ : ∃ p, t.poll = (p, .ok (pending t).next) := ⟨_, poll_toJob h place⟩
    rw [round, visit, hp]
    rfl

theorem round_cons_of_failsNext {r : Rendered ω α} {error : Error} (h : r.FailsNext error)
    (place : Nat) (rs : List (Rendered ω α)) :
    round place (r :: rs) = ⟨r.visit place, .error error⟩ := by
  cases r with
  | ready a => cases h
  | pending t =>
    obtain ⟨p, hp⟩ : ∃ p, t.poll = (p, .error error) := ⟨_, poll_toJob_of_failsNext h place⟩
    rw [round, visit, hp]

/-- The items that a round leaves are those that its polls have made of the items. -/
theorem left_eq_ok {place : Nat} {rs left : List (Rendered ω α)}
    (h : (round place rs).left = .ok left) : (∀ r ∈ rs, r.Passes) ∧ left = rs.map next := by
  induction rs generalizing place left with
  | nil =>
    cases h
    exact ⟨nofun, rfl⟩
  | cons r rs ih =>
    rcases r.passes_or_failsNext with hr | ⟨error, hr⟩
    · rw [round_cons hr] at h
      obtain ⟨left, hl, rfl⟩ := Except.map_eq_ok_iff.mp h
      obtain ⟨hrs, rfl⟩ := ih hl
      exact ⟨List.forall_mem_cons.mpr ⟨hr, hrs⟩, rfl⟩
    · rw [round_cons_of_failsNext hr] at h
      cases h

/-- **A poll of a join is a round over its items**, and it leaves the join of what the round leaves
of them. -/
theorem poll_joinAll {rs : List (Rendered ω α)} (h : rs.length ≤ Job.roundLimit) (place : Nat) :
    (joinAll rs).toJob.poll = ((round place rs).record, (round place rs).left.map joinAll) := by
  induction rs generalizing place with
  | nil => rfl
  | cons r rs ih =>
    rw [joinAll_cons h, toJob_map, toJob_both, Job.poll_map, poll_both,
      ih (Nat.le_of_succ_le h) (place + 1)]
    rcases r.passes_or_failsNext with hr | ⟨error, hr⟩
    · rw [poll_toJob hr place, round_cons hr]
      refine Prod.ext ?_ ?_
      · simp [Round.record, Poll.total_append]
      · cases hl : (round (place + 1) rs).left with
        | error error => rfl
        | ok left =>
          obtain ⟨-, rfl⟩ := left_eq_ok hl
          have hlength : (r.next :: rs.map next).length ≤ Job.roundLimit := by
            rwa [List.length_cons, List.length_map]
          exact congrArg Except.ok (joinAll_cons hlength).symm
    · rw [poll_toJob_of_failsNext hr place, round_cons_of_failsNext hr]
      rfl

/-! ### Who is polled -/

/-- Whether a result is not settled after `n` polls. -/
def isOpenAfter (n : Nat) (r : Rendered ω α) : Bool :=
  match r.ending? with
  | none => true
  | some (m, _) => n < m

/-- The places of the items that are not settled after `n` rounds, if the first of all items stands
at `place`. -/
def openPlaces (n : Nat) : (place : Nat) → List (Rendered ω α) → List Nat
  | _, [] => []
  | place, r :: rs =>
    if r.isOpenAfter n then place :: openPlaces n (place + 1) rs else openPlaces n (place + 1) rs

/-- The visits in the round of a join that follows `n` others. There are none behind a failure. -/
def visitsAfter : (n : Nat) → List (Rendered ω α) → List (Nat × Poll ω)
  | 0, rs => (round 0 rs).visits
  | n + 1, rs =>
    match (round 0 rs).left with
    | .error _ => []
    | .ok left => visitsAfter n left

/-- The record of the poll that follows `n` others. What is settled records nothing. -/
def recordAfter : (n : Nat) → Rendered ω α → Poll ω
  | 0, r => r.toJob.poll.1
  | n + 1, r =>
    match r.toJob.poll.2 with
    | .error _ => .silent
    | .ok s => recordAfter n s

theorem isOpenAfter_next {r : Rendered ω α} (h : r.Passes) (n : Nat) :
    r.next.isOpenAfter n = r.isOpenAfter (n + 1) := by
  rw [isOpenAfter, isOpenAfter, ending?_next h]
  rcases r.ending? with _ | ⟨m, result⟩
  · rfl
  · simp only [Option.map_some]
    exact decide_eq_decide.mpr (by omega)

theorem openPlaces_map_next {rs : List (Rendered ω α)} (h : ∀ r ∈ rs, r.Passes) (n place : Nat) :
    openPlaces n place (rs.map next) = openPlaces (n + 1) place rs := by
  induction rs generalizing place with
  | nil => rfl
  | cons r rs ih =>
    obtain ⟨hr, hrs⟩ := List.forall_mem_cons.mp h
    rw [List.map_cons, openPlaces, openPlaces, isOpenAfter_next hr, ih hrs]

/-- An item is visited if it is pending. -/
theorem visit_append_openPlaces (place : Nat) (r : Rendered ω α) (rs : List (Rendered ω α)) :
    (r.visit place).map Prod.fst ++ openPlaces 0 (place + 1) rs = openPlaces 0 place (r :: rs) := by
  cases r with
  | ready a => rfl
  | pending t =>
    have h : (pending t).isOpenAfter 0 = true := by
      rw [isOpenAfter]
      split
      · rfl
      · rename_i m result he
        exact decide_eq_true (pos_of_ending?_pending he)
    rw [openPlaces, if_pos h]
    rfl

/-- A round in which no item fails polls all that are pending. -/
theorem round_of_passes {rs : List (Rendered ω α)} (h : ∀ r ∈ rs, r.Passes) (place : Nat) :
    (round place rs).left = .ok (rs.map next) ∧
      (round place rs).visits.map Prod.fst = openPlaces 0 place rs := by
  induction rs generalizing place with
  | nil => exact ⟨rfl, rfl⟩
  | cons r rs ih =>
    obtain ⟨hr, hrs⟩ := List.forall_mem_cons.mp h
    obtain ⟨hleft, hvisits⟩ := ih hrs (place + 1)
    rw [round_cons hr, hleft, List.map_append, hvisits, visit_append_openPlaces]
    exact ⟨rfl, rfl⟩

/-- An item that fails ends the round behind the items before it. -/
theorem round_of_failsNext {before : List (Rendered ω α)} (h : ∀ r ∈ before, r.Passes)
    {r : Rendered ω α} {error : Error} (hr : r.FailsNext error) (after : List (Rendered ω α))
    (place : Nat) :
    (round place (before ++ r :: after)).left = .error error ∧
      (round place (before ++ r :: after)).visits.map Prod.fst =
        openPlaces 0 place (before ++ [r]) := by
  induction before generalizing place with
  | nil =>
    rw [List.nil_append, round_cons_of_failsNext hr, List.nil_append, ← visit_append_openPlaces,
      openPlaces, List.append_nil]
    exact ⟨rfl, rfl⟩
  | cons s before ih =>
    obtain ⟨hs, hbefore⟩ := List.forall_mem_cons.mp h
    obtain ⟨hleft, hvisits⟩ := ih hbefore (place + 1)
    rw [List.cons_append, round_cons hs, hleft, List.map_append, hvisits, List.cons_append,
      visit_append_openPlaces]
    exact ⟨rfl, rfl⟩

/-! ### The ends of a join -/

/-- A result that ends with a failure. -/
def Fails (r : Rendered ω α) : Prop := ∃ n error, r.ending? = some (n, .error error)

/-- Of the items `before`, `r` and `after` of a join, `r` is the first to fail: in the round `n`, in
which none before it fails, while none at all fails in an earlier round. -/
structure FirstFailure (before : List (Rendered ω α)) (r : Rendered ω α)
    (after : List (Rendered ω α)) (n : Nat) (error : Error) : Prop where
  ending : r.ending? = some (n, .error error)
  before : ∀ s ∈ before, ∀ m e, s.ending? = some (m, .error e) → n < m
  after : ∀ s ∈ after, ∀ m e, s.ending? = some (m, .error e) → n ≤ m

variable {rs before after : List (Rendered ω α)} {r : Rendered ω α} {n : Nat} {error : Error}

/-- If any item fails, one is the first to do so. -/
theorem exists_firstFailure (h : ∃ r ∈ rs, r.Fails) :
    ∃ before r after n error, rs = before ++ r :: after ∧
      FirstFailure before r after n error := by
  induction rs with
  | nil => simp at h
  | cons s rs ih =>
    by_cases hrs : ∃ r ∈ rs, r.Fails
    · obtain ⟨before, r, after, n, error, rfl, hr⟩ := ih hrs
      by_cases hs : ∃ m e, s.ending? = some (m, .error e) ∧ m ≤ n
      · -- The first item fails no later than any of the others.
        obtain ⟨m, e, hm, hmn⟩ := hs
        refine ⟨[], s, _, m, e, rfl, hm, nofun, fun t ht m' e' ht' => ?_⟩
        rcases List.mem_append.mp ht with ht | ht
        · exact Nat.le_trans hmn (Nat.le_of_lt (hr.before t ht m' e' ht'))
        · rcases List.mem_cons.mp ht with rfl | ht
          · cases hr.ending.symm.trans ht'
            exact hmn
          · exact Nat.le_trans hmn (hr.after t ht m' e' ht')
      · refine ⟨s :: before, r, after, n, error, rfl, hr.ending, ?_, hr.after⟩
        refine List.forall_mem_cons.mpr ⟨fun m e hm => ?_, hr.before⟩
        exact Nat.lt_of_not_le fun hmn => hs ⟨m, e, hm, hmn⟩
    · obtain ⟨t, ht, n, error, hn⟩ := h
      have hother : ∀ t ∈ rs, ¬ t.Fails := fun t ht hf => hrs ⟨t, ht, hf⟩
      obtain rfl : t = s := (List.mem_cons.mp ht).resolve_right fun ht => hother t ht ⟨n, error, hn⟩
      exact ⟨[], t, rs, n, error, rfl, hn, nofun, fun u hu m e hm => absurd ⟨m, e, hm⟩ (hother u hu)⟩

/-- A join with an item that is not there from the start is pending. -/
theorem isPending_joinAll_of_mem (hr : r ∈ rs) (he : ∀ a, r.ending? ≠ some (0, .ok a)) :
    (joinAll rs).isPending = true := by
  rw [isPending_joinAll]
  refine List.any_eq_true.mpr ⟨r, hr, ?_⟩
  cases r with
  | ready a => exact absurd rfl (he a)
  | pending t => rfl

/-- A join that is not ready ends as its items do after a round. -/
theorem ending?_joinAll (h : rs.length ≤ Job.roundLimit) (hp : (joinAll rs).isPending = true) :
    (joinAll rs).ending? =
      match (round 0 rs).left with
      | .error error => some (1, .error error)
      | .ok left => (joinAll left).ending?.map fun p => (p.1 + 1, p.2) := by
  have hpoll := poll_joinAll h 0
  cases hj : joinAll rs with
  | ready as =>
    rw [hj] at hp
    cases hp
  | pending t =>
    rw [hj] at hpoll
    have ht : t.poll = _ := hpoll
    rw [ending?_pending, ht]
    cases (round 0 rs).left <;> rfl

/-! #### All values -/

/-- The last of several rounds. -/
def lastRound (ends : List (Nat × α)) : Nat := (ends.map Prod.fst).foldr max 0

theorem exists_of_lastRound_ne_zero {ends : List (Nat × α)} (h : lastRound ends ≠ 0) :
    ∃ e ∈ ends, e.1 ≠ 0 := by
  induction ends with
  | nil => exact absurd rfl h
  | cons e ends ih =>
    by_cases he : e.1 = 0
    · have hends : lastRound ends ≠ 0 := fun hl => h (Nat.max_eq_zero_iff.mpr ⟨he, hl⟩)
      obtain ⟨f, hf, hne⟩ := ih hends
      exact ⟨f, List.mem_cons_of_mem e hf, hne⟩
    · exact ⟨e, List.mem_cons_self, he⟩

theorem lastRound_pred (ends : List (Nat × α)) :
    lastRound (ends.map fun e => (e.1 - 1, e.2)) = lastRound ends - 1 := by
  induction ends with
  | nil => rfl
  | cons e ends ih =>
    have hmax : max (e.1 - 1) (lastRound ends - 1) = max e.1 (lastRound ends) - 1 := by omega
    exact (congrArg (max (e.1 - 1)) ih).trans hmax

theorem passes_of_values {ends : List (Nat × α)}
    (h : rs.map ending? = ends.map fun e => some (e.1, .ok e.2)) : ∀ r ∈ rs, r.Passes := by
  intro r hr error he
  obtain ⟨e, -, hv⟩ := List.mem_map.mp (h ▸ List.mem_map_of_mem hr)
  exact nomatch (Prod.mk.inj (Option.some.inj (hv.trans he))).2

theorem map_next_values {ends : List (Nat × α)}
    (h : rs.map ending? = ends.map fun e => some (e.1, .ok e.2)) :
    (rs.map next).map ending? =
      (ends.map fun e => (e.1 - 1, e.2)).map fun e => some (e.1, .ok e.2) := by
  have hnext : (rs.map next).map ending? =
      (rs.map ending?).map (Option.map fun p => (p.1 - 1, p.2)) := by
    rw [List.map_map, List.map_map]
    exact List.map_congr_left fun r hr => ending?_next (passes_of_values h r hr)
  rw [hnext, h, List.map_map, List.map_map]
  rfl

/-- If all items have settled without a poll, they are ready. -/
theorem eq_map_ready {ends : List (Nat × α)}
    (h : rs.map ending? = ends.map fun e => some (e.1, .ok e.2)) (hz : lastRound ends = 0) :
    rs = (ends.map Prod.snd).map ready := by
  induction ends generalizing rs with
  | nil => exact List.map_eq_nil_iff.mp h
  | cons e ends ih =>
    obtain ⟨r, rs, rfl, hr, hrs⟩ := List.map_eq_cons_iff.mp h
    obtain ⟨he, hends⟩ := Nat.max_eq_zero_iff.mp hz
    rw [ih hrs hends]
    cases r with
    | ready a =>
      obtain rfl : a = e.2 := Except.ok.inj (Prod.mk.inj (Option.some.inj hr)).2
      rfl
    | pending t => exact absurd he (Nat.ne_of_gt (pos_of_ending?_pending hr))

/-- If all items settle with values, the join settles with the list of them when the last one
does. -/
theorem ending?_joinAll_of_values (h : rs.length ≤ Job.roundLimit) {ends : List (Nat × α)}
    (he : rs.map ending? = ends.map fun e => some (e.1, .ok e.2)) :
    (joinAll rs).ending? = some (lastRound ends, .ok (ends.map Prod.snd)) := by
  induction hN : lastRound ends generalizing rs ends with
  | zero =>
    have hready := readyAll?_eq_some_iff.mpr (eq_map_ready he hN)
    rw [joinAll, hready]
    rfl
  | succ N ih =>
    -- A last round that is not the zeroth belongs to an item that is pending.
    obtain ⟨e, hmem, hne⟩ := exists_of_lastRound_ne_zero (by omega : lastRound ends ≠ 0)
    obtain ⟨r, hr, hre⟩ := List.mem_map.mp (he ▸ List.mem_map_of_mem hmem)
    have hp : (joinAll rs).isPending = true := isPending_joinAll_of_mem hr fun a ha =>
      hne (Prod.mk.inj (Option.some.inj (hre.symm.trans ha))).1
    have hlength : (rs.map next).length ≤ Job.roundLimit := by rwa [List.length_map]
    have hround : lastRound (ends.map fun e => (e.1 - 1, e.2)) = N := by
      rw [lastRound_pred, hN, Nat.add_sub_cancel]
    rw [ending?_joinAll h hp, (round_of_passes (passes_of_values he) 0).1]
    simp only [ih hlength (map_next_values he) hround, List.map_map]
    rfl

/-! #### No end -/

theorem ending?_of_next {m : Nat} (hr : r.Passes)
    (h : r.next.ending? = some (m, .error error)) : r.ending? = some (m + 1, .error error) := by
  rw [ending?_next hr] at h
  obtain ⟨⟨k, _⟩, hk, he⟩ := Option.map_eq_some_iff.mp h
  obtain ⟨rfl, rfl⟩ := Prod.mk.inj he
  rw [hk, Nat.sub_add_cancel (pos_of_ending?_error hk)]

theorem Fails.of_next (hr : r.Passes) (h : r.next.Fails) : r.Fails := by
  obtain ⟨m, error, hm⟩ := h
  exact ⟨m + 1, error, ending?_of_next hr hm⟩

/-- If an item stalls and none fails, the join stalls. -/
theorem ending?_joinAll_of_stuck (h : rs.length ≤ Job.roundLimit) (hf : ∀ r ∈ rs, ¬ r.Fails)
    (hs : ∃ r ∈ rs, r.ending? = none) : (joinAll rs).ending? = none := by
  refine Option.eq_none_iff_forall_ne_some.mpr fun ⟨n, result⟩ => ?_
  -- The join would have to end in a round with a number, but none can be that number.
  induction n generalizing rs with
  | zero =>
    obtain ⟨r, hr, hn⟩ := hs
    have hp := isPending_joinAll_of_mem hr fun a ha => by cases hn.symm.trans ha
    cases hj : joinAll rs with
    | ready as =>
      rw [hj] at hp
      cases hp
    | pending t => exact fun he => Nat.lt_irrefl 0 (pos_of_ending?_pending he)
  | succ n ih =>
    obtain ⟨r, hr, hn⟩ := hs
    have hp := isPending_joinAll_of_mem hr fun a ha => by cases hn.symm.trans ha
    have hpass : ∀ r ∈ rs, r.Passes := fun r hr error he => hf r hr ⟨1, error, he⟩
    have hf' : ∀ s ∈ rs.map next, ¬ s.Fails := by
      intro s hs hfail
      obtain ⟨r, hr, rfl⟩ := List.mem_map.mp hs
      exact hf r hr (.of_next (hpass r hr) hfail)
    have hs' : ∃ s ∈ rs.map next, s.ending? = none :=
      ⟨r.next, List.mem_map_of_mem hr, by rw [ending?_next (hpass r hr), hn]; rfl⟩
    have hlength : (rs.map next).length ≤ Job.roundLimit := by rwa [List.length_map]
    rw [ending?_joinAll h hp, (round_of_passes hpass 0).1]
    intro he
    obtain ⟨⟨m, result'⟩, hm, he⟩ := Option.map_eq_some_iff.mp he
    obtain ⟨hmn, rfl⟩ := Prod.mk.inj he
    exact ih hlength hf' hs' (Nat.succ.inj hmn ▸ hm)

/-! #### Failures -/

namespace FirstFailure

theorem pos (h : FirstFailure before r after n error) : 0 < n := pos_of_ending?_error h.ending

/-- Up to the round of the failure all items pass. -/
theorem passes (h : FirstFailure before r after n error) (hn : 1 < n) :
    ∀ s ∈ before ++ r :: after, s.Passes := by
  intro s hs e he
  rcases List.mem_append.mp hs with hs | hs
  · exact absurd (h.before s hs 1 e he) (by omega)
  · rcases List.mem_cons.mp hs with rfl | hs
    · cases h.ending.symm.trans he
      omega
    · exact absurd (h.after s hs 1 e he) (by omega)

theorem passes_before (h : FirstFailure before r after n error) : ∀ s ∈ before, s.Passes :=
  fun s hs e he => absurd (h.before s hs 1 e he) (by have := h.pos; omega)

/-- A round brings the first failure nearer by one. -/
theorem next (h : FirstFailure before r after (n + 1) error) (hn : n ≠ 0) :
    FirstFailure (before.map Rendered.next) r.next (after.map Rendered.next) n error := by
  have hpass := h.passes (by omega)
  have hr : r.Passes := hpass r (by simp)
  refine ⟨by rw [ending?_next hr, h.ending]; rfl, fun s hs m e hm => ?_, fun s hs m e hm => ?_⟩
  · obtain ⟨t, ht, rfl⟩ := List.mem_map.mp hs
    have hm := h.before t ht _ _ (ending?_of_next (hpass t (by simp [ht])) hm)
    omega
  · obtain ⟨t, ht, rfl⟩ := List.mem_map.mp hs
    have hm := h.after t ht _ _ (ending?_of_next (hpass t (by simp [ht])) hm)
    omega

end FirstFailure

theorem map_next_append (before after : List (Rendered ω α)) (r : Rendered ω α) :
    (before ++ r :: after).map next = before.map next ++ r.next :: after.map next := by
  rw [List.map_append, List.map_cons]

/-- If an item fails, the join fails with the first failure, in its round. -/
theorem ending?_joinAll_of_failure (h : (before ++ r :: after).length ≤ Job.roundLimit)
    (hf : FirstFailure before r after n error) :
    (joinAll (before ++ r :: after)).ending? = some (n, .error error) := by
  induction n generalizing before r after with
  | zero => exact absurd hf.pos (Nat.lt_irrefl 0)
  | succ n ih =>
    have hp : (joinAll (before ++ r :: after)).isPending = true :=
      isPending_joinAll_of_mem (r := r) (by simp) fun a ha => by cases hf.ending.symm.trans ha
    rw [ending?_joinAll h hp]
    by_cases hn : n = 0
    · subst hn
      rw [(round_of_failsNext hf.passes_before hf.ending after 0).1]
    · have hlength : (before.map next ++ r.next :: after.map next).length ≤ Job.roundLimit := by
        rwa [← map_next_append, List.length_map]
      rw [(round_of_passes (hf.passes (by omega)) 0).1, map_next_append]
      simp only [ih hlength (hf.next hn)]
      rfl

/-- Up to a failure all open items are visited in each round, in the round of the failure those
up to the failing one, and none afterwards. -/
theorem visitsAfter_of_failure (hf : FirstFailure before r after n error) (m : Nat) :
    (m + 1 < n → (visitsAfter m (before ++ r :: after)).map Prod.fst =
      openPlaces m 0 (before ++ r :: after)) ∧
    (m + 1 = n → (visitsAfter m (before ++ r :: after)).map Prod.fst =
      openPlaces m 0 (before ++ [r])) ∧
    (n ≤ m → visitsAfter m (before ++ r :: after) = []) := by
  induction m generalizing before r after n with
  | zero =>
    refine ⟨fun hn => ?_, fun hn => ?_, fun hn => absurd hf.pos (by omega)⟩
    · exact (round_of_passes (hf.passes hn) 0).2
    · subst hn
      exact (round_of_failsNext hf.passes_before hf.ending after 0).2
  | succ m ih =>
    obtain ⟨n, rfl⟩ : ∃ k, n = k + 1 := ⟨n - 1, by have := hf.pos; omega⟩
    by_cases hn : n = 0
    · subst hn
      rw [visitsAfter, (round_of_failsNext hf.passes_before hf.ending after 0).1]
      exact ⟨fun h => by omega, fun h => by omega, fun _ => rfl⟩
    · have hpass := hf.passes (by omega)
      have hbefore : ∀ s ∈ before ++ [r], s.Passes := fun s hs =>
        hpass s (List.append_cons before r after ▸ List.mem_append_left after hs)
      obtain ⟨h₁, h₂, h₃⟩ := ih (hf.next hn)
      rw [visitsAfter, (round_of_passes hpass 0).1]
      simp only [map_next_append]
      refine ⟨fun h => ?_, fun h => ?_, fun h => h₃ (by omega)⟩
      · rw [h₁ (by omega), ← map_next_append, openPlaces_map_next hpass]
      · rw [h₂ (by omega), ← openPlaces_map_next hbefore, List.map_append]
        rfl

/-! ### Records -/

/-- What is visited in a round is polled as it would be alone. -/
theorem exists_of_mem_visits {place : Nat} {v : Nat × Poll ω}
    (h : v ∈ (round place rs).visits) :
    ∃ k r, v.1 = place + k ∧ rs[k]? = some r ∧ v.2 = r.recordAfter 0 := by
  induction rs generalizing place with
  | nil => cases h
  | cons r rs ih =>
    have hvisit (hv : v ∈ r.visit place) :
        ∃ k s, v.1 = place + k ∧ (r :: rs)[k]? = some s ∧ v.2 = s.recordAfter 0 := by
      cases r with
      | ready a => cases hv
      | pending t =>
        obtain rfl := List.mem_singleton.mp hv
        exact ⟨0, pending t, rfl, rfl, rfl⟩
    rcases r.passes_or_failsNext with hr | ⟨error, hr⟩
    · rw [round_cons hr] at h
      rcases List.mem_append.mp h with hv | hv
      · exact hvisit hv
      · obtain ⟨k, s, hk, hs, hrecord⟩ := ih hv
        exact ⟨k + 1, s, by omega, hs, hrecord⟩
    · rw [round_cons_of_failsNext hr] at h
      exact hvisit h

/-- In every round the visited items are polled as they would be alone. -/
theorem exists_of_mem_visitsAfter {m : Nat} {v : Nat × Poll ω} (h : v ∈ visitsAfter m rs) :
    ∃ r, rs[v.1]? = some r ∧ v.2 = r.recordAfter m := by
  induction m generalizing rs with
  | zero =>
    obtain ⟨k, r, hk, hr, hrecord⟩ := exists_of_mem_visits h
    rw [Nat.zero_add] at hk
    exact ⟨r, hk ▸ hr, hrecord⟩
  | succ m ih =>
    rw [visitsAfter] at h
    split at h
    · cases h
    · rename_i left hl
      obtain ⟨hpass, rfl⟩ := left_eq_ok hl
      obtain ⟨s, hs, hrecord⟩ := ih h
      rw [List.getElem?_map] at hs
      obtain ⟨r, hr, rfl⟩ := Option.map_eq_some_iff.mp hs
      refine ⟨r, hr, ?_⟩
      rw [hrecord, recordAfter, poll_toJob (hpass r (List.mem_of_getElem? hr)) 0]

/-- The record of a poll of a join is made of the records of the visits in that round. -/
theorem recordAfter_joinAll (h : rs.length ≤ Job.roundLimit) (m : Nat) :
    (joinAll rs).recordAfter m = Poll.total ((visitsAfter m rs).map Prod.snd) := by
  induction m generalizing rs with
  | zero => exact congrArg Prod.fst (poll_joinAll h 0)
  | succ m ih =>
    rw [recordAfter, poll_joinAll h 0, visitsAfter]
    cases hl : (round 0 rs).left with
    | error error => rfl
    | ok left =>
      obtain ⟨-, rfl⟩ := left_eq_ok hl
      exact ih (by rwa [List.length_map])

/-- **A join of at most thirty items.** It is ready if all items are. If all items settle with
values, it has them in the order of the items when the last one settles. If an item never settles
and none fails, it never settles. If any item fails, the join fails with the first failure of the
earliest round in which one fails. Until then every item that is open is polled in every round; in
the round of the failure no item behind the failing one is polled, and none in any later round.
What is polled records what it would record alone, and the join records nothing else. -/
theorem joinAll_rounds (h : rs.length ≤ Job.roundLimit) :
    (joinAll rs).isPending = rs.any isPending ∧
    (∀ ends : List (Nat × α), rs.map ending? = ends.map (fun e => some (e.1, .ok e.2)) →
      (joinAll rs).ending? = some (lastRound ends, .ok (ends.map Prod.snd))) ∧
    ((∀ r ∈ rs, ¬ r.Fails) → (∃ r ∈ rs, r.ending? = none) → (joinAll rs).ending? = none) ∧
    ((∃ r ∈ rs, r.Fails) → ∃ before r after n error,
      rs = before ++ r :: after ∧ FirstFailure before r after n error ∧
      (joinAll rs).ending? = some (n, .error error) ∧
      ∀ m, (visitsAfter m rs).map Prod.fst =
        if m + 1 < n then openPlaces m 0 rs
        else if m + 1 = n then openPlaces m 0 (before ++ [r])
        else []) ∧
    ∀ m, (joinAll rs).recordAfter m = Poll.total ((visitsAfter m rs).map Prod.snd) ∧
      ∀ v ∈ visitsAfter m rs, ∃ r, rs[v.1]? = some r ∧ v.2 = r.recordAfter m := by
  refine ⟨isPending_joinAll rs, fun ends => ending?_joinAll_of_values h,
    ending?_joinAll_of_stuck h, fun hf => ?_,
    fun m => ⟨recordAfter_joinAll h m, fun v => exists_of_mem_visitsAfter⟩⟩
  obtain ⟨before, r, after, n, error, rfl, hfirst⟩ := exists_firstFailure hf
  refine ⟨before, r, after, n, error, rfl, hfirst, ending?_joinAll_of_failure h hfirst,
    fun m => ?_⟩
  obtain ⟨hbelow, hat, habove⟩ := visitsAfter_of_failure hfirst m
  split
  · exact hbelow ‹_›
  · split
    · exact hat ‹_›
    · rw [habove (by omega)]
      rfl

/-- An item that never settles and one that settles late, beside two that fail in one round. -/
def twoFailures : List (Rendered String String) :=
  [pending .never, later 3 "a", pending ((Job.settled ["b"] (.error (.component "b"))).delay 1),
    pending ((Job.settled ["c"] (.error (.component "c"))).delay 1)]

/-- The first of the two failures ends the join, whatever else goes on. -/
theorem joinAll_rounds_twoFailures :
    twoFailures.length ≤ Job.roundLimit ∧ (∃ r ∈ twoFailures, r.Fails) ∧
      ∃ before r after n error,
        twoFailures = before ++ r :: after ∧ FirstFailure before r after n error ∧
        (joinAll twoFailures).ending? = some (n, .error error) ∧
        ∀ m, (visitsAfter m twoFailures).map Prod.fst =
          if m + 1 < n then openPlaces m 0 twoFailures
          else if m + 1 = n then openPlaces m 0 (before ++ [r])
          else [] := by
  have hlength : twoFailures.length ≤ Job.roundLimit := by decide
  have hfails : ∃ r ∈ twoFailures, r.Fails :=
    ⟨_, List.mem_of_getElem? (i := 2) rfl, 2, .component "b", rfl⟩
  exact ⟨hlength, hfails, (joinAll_rounds hlength).2.2.2.1 hfails⟩

example : (joinAll twoFailures).ending? = some (2, .error (.component "b")) := rfl

end Rendered

end MarkupTemplate
