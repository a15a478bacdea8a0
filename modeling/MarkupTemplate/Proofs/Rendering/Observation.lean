import MarkupTemplate.Proofs.Rendering.Calls
import MarkupTemplate.Proofs.Suspension.AttemptLaws

/-!
# Observing the calls of a run

An observed tree does what the tree does and writes down more. Every call is recorded with its
path and with what it returns: an answer, a job, or an error. The output of a call is recorded as
well when it is there, which is at once or in the poll in which the job of the call settles with
a value. Erasing these records gives back the run of the tree, event for event and poll for poll,
so what is said of the calls of the observed tree is said of the calls of the tree.

## Main definitions

* `MarkupTemplate.NodeEvent` — what is recorded.
* `MarkupTemplate.Component.observed`, `MarkupTemplate.Tree.observed` — the observed component, and
  the tree with all its components observed.
* `MarkupTemplate.Attempt.pick` — an attempt with only a choice of its events.

## Main results

* `MarkupTemplate.Tree.pick_render` — a choice of events may be made in the components.
* `MarkupTemplate.Tree.pick_render_observed` — erasing what is recorded gives back the run.
-/

namespace MarkupTemplate

variable {ω ω' ο α β : Type}

/-! ### What is recorded -/

/-- What a call returns. -/
inductive Reply where
  | answered
  | suspended
  | refused
  deriving DecidableEq, Repr

/-- An event in the run of an observed tree. Nodes are given by their paths. -/
inductive NodeEvent (ω : Type) where
  /-- The component of a node is called, and returns in this way. -/
  | called (path : List Nat) (reply : Reply)
  /-- A component records an event of its own. -/
  | own (event : ω)
  /-- The output of the component of a node is there. -/
  | produced (path : List Nat)
  deriving DecidableEq, Repr

/-- The event of a component that is recorded here, if it is one. -/
def NodeEvent.own? : NodeEvent ω → Option ω
  | called .. => none
  | own event => some event
  | produced _ => none

/-- The job of the call at `path`, which records that its value is there. -/
def Job.observe (path : List Nat) : Job ω α → Job (NodeEvent ω) α
  | settles poll (.ok a) => settles (poll.mapEvents .own ++ .ofEvents [.produced path]) (.ok a)
  | settles poll (.error error) => settles (poll.mapEvents .own) (.error error)
  | waits events next => waits (events.map .own) (next.observe path)
  | stalls poll => stalls (poll.mapEvents .own)

/-- The call at `path` with what it returns, recorded. -/
def Attempt.observe (path : List Nat) (x : Attempt ω (Rendered ω α)) :
    Attempt (NodeEvent ω) (Rendered (NodeEvent ω) α) :=
  match x.result with
  | .error error => ⟨.called path .refused :: x.events.map .own, .error error⟩
  | .ok (.ready a) =>
    ⟨.called path .answered :: (x.events.map .own ++ [.produced path]), .ok (.ready a)⟩
  | .ok (.pending job) =>
    ⟨.called path .suspended :: x.events.map .own, .ok (.pending (job.observe path))⟩

/-- The component of the node at `path`, which records its call. -/
def Component.observed (path : List Nat) (c : Component ω ο) : Component (NodeEvent ω) ο where
  name := c.name
  identity := c.identity
  render props := (c.render props).observe path

/-- The tree whose components record their calls and outputs. -/
def Tree.observed (t : Tree ω ο) : Tree (NodeEvent ω) ο := t.mapCalls Component.observed []

/-! ### A choice of events -/

section Pick

variable (g : ω → Option ω')

/-- The record with a choice of its events. -/
def Poll.pick (p : Poll ω) : Poll ω' := ⟨p.events.filterMap g, p.woken⟩

/-- The job with a choice of its events. -/
def Job.pick : Job ω α → Job ω' α
  | settles poll result => settles (poll.pick g) result
  | waits events next => waits (events.filterMap g) next.pick
  | stalls poll => stalls (poll.pick g)

/-- The result with a choice of the events of its job. -/
def Rendered.pick : Rendered ω α → Rendered ω' α
  | ready a => ready a
  | pending job => pending (job.pick g)

/-- The attempt with a choice of its events and its result changed. -/
def Attempt.pickWith (h : α → β) (x : Attempt ω α) : Attempt ω' β :=
  ⟨x.events.filterMap g, x.result.map h⟩

/-- The attempt at a result with a choice of all its events. -/
def Attempt.pick (x : Attempt ω (Rendered ω α)) : Attempt ω' (Rendered ω' α) :=
  x.pickWith g (Rendered.pick g)

@[simp] theorem Poll.pick_append (p q : Poll ω) : (p ++ q).pick g = p.pick g ++ q.pick g :=
  Poll.ext (List.filterMap_append ..) rfl

namespace Job

@[simp] theorem pick_prepend (p : Poll ω) : (t : Job ω α) →
    (t.prepend p).pick g = (t.pick g).prepend (p.pick g)
  | settles q _ => congrArg (settles · _) (Poll.pick_append g p q)
  | waits _ t => congrArg (waits · (t.pick g)) (List.filterMap_append ..)
  | stalls q => congrArg stalls (Poll.pick_append g p q)

@[simp] theorem pick_map (f : α → β) : (t : Job ω α) → (t.map f).pick g = (t.pick g).map f
  | settles _ (.ok _) => rfl
  | settles _ (.error _) => rfl
  | waits events t => congrArg (waits (events.filterMap g)) (pick_map f t)
  | stalls _ => rfl

@[simp] theorem pick_starve : (t : Job ω α) → (t.starve : Job ω β).pick g = (t.pick g).starve
  | settles _ (.ok _) => rfl
  | settles _ (.error _) => rfl
  | waits events t => congrArg (waits (events.filterMap g)) (pick_starve t)
  | stalls _ => rfl

theorem pick_both : (t : Job ω α) → (u : Job ω β) →
    (both t u).pick g = both (t.pick g) (u.pick g)
  | settles _ (.error _), _ => rfl
  | settles poll (.ok a), u => by simp only [both, pick, pick_prepend, pick_map]
  | stalls poll, u => by simp only [both, pick, pick_prepend, pick_starve]
  | waits events t, settles poll (.error error) =>
      congrArg (settles · (.error error)) (Poll.pick_append g ⟨events, true⟩ poll)
  | waits events t, settles poll (.ok b) => by
      simp only [both, pick, pick_map, List.filterMap_append, Poll.pick]
  | waits events t, waits es u => by
      simp only [both, pick, List.filterMap_append, pick_both t u]
  | waits events t, stalls poll => by
      simp only [both, pick, pick_starve, List.filterMap_append, Poll.pick]

theorem pick_joinRounds : (ts : List (Job ω α)) →
    (joinRounds ts).pick g = joinRounds (ts.map (pick g))
  | [] => rfl
  | t :: ts => by
      rw [joinRounds, pick_map, pick_both, pick_joinRounds ts, List.map_cons, joinRounds]

end Job

/-- What an attempt amounts to as a job has the choice of its events. -/
theorem Attempt.toJob_pick : (x : Attempt ω (Rendered ω α)) → (x.pick g).toJob = x.toJob.pick g
  | ⟨_, .error _⟩ => rfl
  | ⟨_, .ok (.ready _)⟩ => rfl
  | ⟨events, .ok (.pending t)⟩ => (Job.pick_prepend g (.ofEvents events) t).symm

theorem Job.pick_andThen {f : α → Attempt ω (Rendered ω β)} {f' : α → Attempt ω' (Rendered ω' β)}
    (hf : ∀ a, (f a).pick g = f' a) : (t : Job ω α) →
      (t.andThen f).pick g = (t.pick g).andThen f'
  | settles poll (.ok a) => by
      rw [andThen, pick_prepend, ← Attempt.toJob_pick, hf]
      rfl
  | settles _ (.error _) => rfl
  | waits events t => congrArg (waits (events.filterMap g)) (pick_andThen hf t)
  | stalls _ => rfl

namespace Rendered

@[simp] theorem pick_map (f : α → β) : (r : Rendered ω α) → (r.map f).pick g = (r.pick g).map f
  | ready _ => rfl
  | pending t => congrArg pending (Job.pick_map g f t)

theorem pick_andThen {f : α → Attempt ω (Rendered ω β)} {f' : α → Attempt ω' (Rendered ω' β)}
    (hf : ∀ a, (f a).pick g = f' a) : (r : Rendered ω α) →
      (r.andThen f).pick g = (r.pick g).andThen f'
  | ready a => hf a
  | pending t => congrArg (fun u => Attempt.succeed (pending u)) (Job.pick_andThen g hf t)

theorem toJob_pick : (r : Rendered ω α) → (r.pick g).toJob = r.toJob.pick g
  | ready _ => rfl
  | pending _ => rfl

theorem readyAll?_pick : (rs : List (Rendered ω α)) →
    readyAll? (rs.map (pick g)) = readyAll? rs
  | [] => rfl
  | ready a :: rs => congrArg (Option.map (a :: ·)) (readyAll?_pick rs)
  | pending _ :: _ => rfl

theorem pick_joinAll {rs : List (Rendered ω α)} (h : rs.length ≤ Job.roundLimit) :
    (joinAll rs).pick g = joinAll (rs.map (pick g)) := by
  rw [joinAll, joinAll, readyAll?_pick]
  split
  · rfl
  · rw [pick, Job.joinAll, Job.joinAll, if_pos (by simpa using h), if_pos (by simpa using h),
      Job.pick_joinRounds, List.map_map, List.map_map]
    exact congrArg (fun ts => pending (Job.joinRounds ts))
      (List.map_congr_left fun r _ => (toJob_pick g r).symm)

end Rendered

/-- A choice of events may be made in the steps of a computation. -/
theorem Attempt.pickWith_bind {γ δ : Type} {h : α → β} {h' : γ → δ} {k : α → Attempt ω γ}
    {k' : β → Attempt ω' δ} : (x : Attempt ω α) →
      (∀ a, x.result = .ok a → (k a).pickWith g h' = k' (h a)) →
        (x >>= k).pickWith g h' = x.pickWith g h >>= k'
  | ⟨_, .error _⟩, _ => rfl
  | ⟨events, .ok a⟩, hk => by
      have hp : (⟨events, .ok a⟩ : Attempt ω α).pickWith g h =
          ⟨events.filterMap g, .ok (h a)⟩ := rfl
      rw [hp, bind_mk_ok, bind_mk_ok, ← hk a rfl]
      exact congrArg (Attempt.mk · _) (List.filterMap_append ..)

/-- A result without events has none to choose from. -/
theorem Attempt.pickWith_ofExcept_bind {γ δ : Type} {h' : γ → δ} {k : α → Attempt ω γ}
    {k' : α → Attempt ω' δ} (hk : ∀ a, (k a).pickWith g h' = k' a) (r : Except Error α) :
    (ofExcept r >>= k).pickWith g h' = ofExcept r >>= k' := by
  cases r with
  | error error => rfl
  | ok a => exact hk a

end Pick

/-! ### Erasing records from a run -/

namespace Tree

variable (backend : Backend ο) (values : List Value) {f : List Nat → Component ω ο → Component ω' ο}
  {g : ω' → Option ω}

/-- A choice of events may be made in what follows the results of a few siblings. -/
theorem pick_bind_joinRendered {x : Attempt ω' (List (Rendered ω' ο))}
    (hx : ∀ rs, x.result = .ok rs → rs.length ≤ Job.roundLimit)
    (k : Rendered ω' ο → Attempt ω' (Rendered ω' ο)) (k' : Rendered ω ο → Attempt ω (Rendered ω ο))
    (hk : ∀ r, (k r).pick g = k' (r.pick g)) :
    (x >>= fun rs => k (joinRendered backend rs)).pick g =
      x.pickWith g (List.map (Rendered.pick g)) >>= fun rs => k' (joinRendered backend rs) :=
  Attempt.pickWith_bind g x fun rs hrs => by
    have hj : (joinRendered backend rs).pick g =
        joinRendered backend (rs.map (Rendered.pick g)) := by
      rw [joinRendered, joinRendered, Rendered.pick_map, Rendered.pick_joinAll g (hx rs hrs)]
    exact (hk _).trans (congrArg k' hj)

theorem length_of_renderAll_mapCallsAll {path : List Nat} {i : Nat} {ts : List (Tree ω ο)}
    (h : ts.length ≤ Job.roundLimit) (rs : List (Rendered ω' ο))
    (hrs : (renderAll backend values (mapCallsAll f path i ts)).result = .ok rs) :
    rs.length ≤ Job.roundLimit := by
  rwa [length_of_renderAll backend _ hrs, length_mapCallsAll]

mutual

/-- A choice of events from the run of a narrow tree may be made in its components. -/
theorem pick_render (hf : ∀ path c props, ((f path c).render props).pick g = c.render props) :
    (path : List Nat) → (t : Tree ω ο) → t.Narrow →
      ((t.mapCalls f path).render backend values).pick g = t.render backend values
  | _, text _, _ => rfl
  | _, reference index, _ => by
      rw [mapCalls, render, render]
      exact Attempt.pickWith_ofExcept_bind g (fun _ => rfl) _
  | path, element tag attrs children, h => by
      rw [mapCalls, render, render]
      refine Attempt.pickWith_ofExcept_bind g (fun texts => ?_) _
      rw [← pickWith_renderAll hf path 0 children h.2]
      exact pick_bind_joinRendered backend (length_of_renderAll_mapCallsAll backend values h.1)
        (fun r => pure (r.map (backend.element tag texts)))
        (fun r => pure (r.map (backend.element tag texts)))
        fun r => congrArg Attempt.succeed (Rendered.pick_map g (backend.element tag texts) r)
  | path, component c attrs children, h => by
      rw [mapCalls, render, render]
      refine Attempt.pickWith_ofExcept_bind g (fun texts => ?_) _
      refine Attempt.pickWith_ofExcept_bind g (fun wholes => ?_) _
      rw [← pickWith_renderAll hf path 0 children h.2]
      exact pick_bind_joinRendered backend (length_of_renderAll_mapCallsAll backend values h.1)
        (fun r => r.andThen fun output => (f path c).render (.ofParts texts wholes output))
        (fun r => r.andThen fun output => c.render (.ofParts texts wholes output))
        fun r => Rendered.pick_andThen g (fun output => hf path c _) r

theorem pickWith_renderAll (hf : ∀ path c props, ((f path c).render props).pick g = c.render props)
    (path : List Nat) : (i : Nat) → (ts : List (Tree ω ο)) → NarrowAll ts →
      (renderAll backend values (mapCallsAll f path i ts)).pickWith g (List.map (Rendered.pick g)) =
        renderAll backend values ts
  | _, [], _ => rfl
  | i, t :: ts, h => by
      rw [mapCallsAll, renderAll, renderAll, ← pick_render hf (path ++ [i]) t h.1,
        ← pickWith_renderAll hf path (i + 1) ts h.2]
      exact Attempt.pickWith_bind g _ fun r _ => Attempt.pickWith_bind g _ fun rs _ => rfl

end

end Tree

/-! ### Erasing what is observed -/

section Erase

variable (path : List Nat)

theorem filterMap_own (events : List ω) : (events.map .own).filterMap NodeEvent.own? = events := by
  simp [List.filterMap_map, Function.comp_def, NodeEvent.own?]

theorem Poll.pick_own (p : Poll ω) : (p.mapEvents .own).pick NodeEvent.own? = p :=
  Poll.ext (filterMap_own p.events) rfl

theorem Job.pick_observe : (t : Job ω α) → (t.observe path).pick NodeEvent.own? = t
  | settles poll (.ok a) => by
      rw [observe, pick, Poll.pick_append, Poll.pick_own]
      exact congrArg (settles · (.ok a)) (Poll.append_silent poll)
  | settles poll (.error error) => congrArg (settles · (.error error)) (Poll.pick_own poll)
  | waits events t => by rw [observe, pick, filterMap_own, pick_observe t]
  | stalls poll => congrArg stalls (Poll.pick_own poll)

/-- Erasing what is recorded of a call gives back the call. -/
theorem Attempt.pick_observe : (x : Attempt ω (Rendered ω α)) →
    (x.observe path).pick NodeEvent.own? = x
  | ⟨events, .error error⟩ => congrArg (Attempt.mk · (.error error)) (filterMap_own events)
  | ⟨events, .ok (.ready a)⟩ => by
      have he : (events.map NodeEvent.own ++ [NodeEvent.produced path]).filterMap NodeEvent.own? =
          events := by
        rw [List.filterMap_append, filterMap_own]
        exact List.append_nil events
      exact congrArg (Attempt.mk · (.ok (Rendered.ready a))) he
  | ⟨events, .ok (.pending t)⟩ => by
      have he : Attempt.pick NodeEvent.own? (observe path ⟨events, .ok (.pending t)⟩) =
          ⟨(events.map .own).filterMap NodeEvent.own?,
            .ok (.pending ((t.observe path).pick NodeEvent.own?))⟩ := rfl
      rw [he, filterMap_own, Job.pick_observe]

end Erase

/-- Observing changes nothing: without the records, the observed run is the run of the tree, event
for event and poll for poll. -/
theorem Tree.pick_render_observed (backend : Backend ο) (values : List Value) (t : Tree ω ο)
    (h : t.Narrow) :
    (t.observed.render backend values).pick NodeEvent.own? = t.render backend values :=
  pick_render backend values (fun path c props => Attempt.pick_observe path (c.render props)) [] t h

end MarkupTemplate
