import MarkupTemplate.Proofs.Rendering.Calls
import MarkupTemplate.Proofs.Suspension.Ends

/-!
# Timing does not show in the output

Let every component be a function from properties to an answer, which is an output or an error.
A schedule says of every call whether the answer is there at once or comes in a later poll, and in
which one. A call is given by its path, since a node is called at most once.

What a tree comes to is found by evaluation, without jobs and polls: the answers of its calls are
taken where they stand, and one failure is the failure of the whole. Under every schedule a narrow
tree settles, and it settles with what evaluation gives. The schedule only decides which of
several errors is seen, and when.

## Main definitions

* `MarkupTemplate.Delivery`, `MarkupTemplate.Schedule` — when calls are answered.
* `MarkupTemplate.Tree.deliver` — the tree whose calls are answered by a schedule.
* `MarkupTemplate.Tree.answer?` — the output of a tree without regard to time.

## Main results

* `MarkupTemplate.Tree.comesTo_render` — a scheduled tree comes to what evaluation gives.
* `MarkupTemplate.Tree.outcome_deliver` — the outcome is that of the prompt schedule.
-/

namespace MarkupTemplate

variable {ω ο α β : Type}

/-! ### Schedules -/

/-- How the answer to a call is delivered. -/
inductive Delivery (ω : Type) where
  /-- The answer is there when the call returns. -/
  | atOnce (events : List ω)
  /-- The call returns a job. Its polls record `idle` one by one, each asking for the next, and
  the poll after these settles it with the answer. -/
  | later (events : List ω) (idle : List (List ω)) (last : Poll ω)

/-- The return of a call. -/
def Delivery.attempt (answer : Except Error α) : Delivery ω → Attempt ω (Rendered ω α)
  | atOnce events => ⟨events, answer.map .ready⟩
  | later events idle last =>
    ⟨events, .ok (.pending (idle.foldr .waits (.settles last answer)))⟩

/-- A delivery for every call, given by its path and its properties. -/
abbrev Schedule (ω ο : Type) := List Nat → Props ο → Delivery ω

/-- The schedule by which all calls are answered at once. -/
def Schedule.prompt : Schedule ω ο := fun _ _ => .atOnce []

/-- The component with given answers and times. -/
def Component.answering (c : Component ω ο) (answer : Props ο → Except Error ο)
    (delivery : Props ο → Delivery ω) : Component ω ο :=
  { c with render := fun props => (delivery props).attempt (answer props) }

namespace Tree

/-- The tree whose calls are answered by a schedule. -/
def deliver (answer : Component ω ο → Props ο → Except Error ο) (σ : Schedule ω ο)
    (t : Tree ω ο) : Tree ω ο :=
  t.mapCalls (fun path c => c.answering (answer c) (σ path)) []

/-- What the rendering of a tree ends with if it is polled to its end. -/
def outcome (backend : Backend ο) (values : List Value) (t : Tree ω ο) : Settlement ο :=
  (t.render backend values).settle.2

variable (backend : Backend ο) (values : List Value)
  (answer : Component ω ο → Props ο → Except Error ο)

mutual

/-- The output of a tree, without regard to time and events. -/
def answer? : Tree ω ο → Option ο
  | text markup => some (backend.static markup)
  | reference index => (substitution values index).toOption.map backend.value
  | element tag attrs children => do
    let texts ← (resolveAttributes values attrs).toOption
    let outputs ← answerAll? children
    return backend.element tag texts (backend.join outputs)
  | component c attrs children => do
    let texts ← (resolveAttributes values attrs).toOption
    let wholes ← (wholeValues values attrs).toOption
    let outputs ← answerAll? children
    (answer c (.ofParts texts wholes (backend.join outputs))).toOption

/-- The outputs of siblings, without regard to time and events. -/
def answerAll? : List (Tree ω ο) → Option (List ο)
  | [] => some []
  | t :: ts => do
    let output ← answer? t
    let outputs ← answerAll? ts
    return output :: outputs

end

end Tree

/-! ### Ends of attempts -/

theorem Job.comesTo_deliveries {events : List (List ω)} {last : Poll ω} (answer : Except Error α) :
    (events.foldr Job.waits (.settles last answer)).ComesTo answer.toOption := by
  induction events with
  | nil => cases answer <;> rfl
  | cons es events ih => exact ih

/-- A delivered answer is what the call comes to, at whatever time. -/
theorem Delivery.comesTo_attempt (answer : Except Error α) : (d : Delivery ω) →
    (d.attempt answer).toJob.ComesTo answer.toOption
  | atOnce _ => by cases answer <;> rfl
  | later events _ _ =>
      (Job.comesTo_prepend (.ofEvents events) _).mpr (Job.comesTo_deliveries answer)

namespace Attempt

theorem comesTo_prepend {a? : Option α} {events : List ω} {x : Attempt ω (Rendered ω α)} :
    (x.prepend events).toJob.ComesTo a? ↔ x.toJob.ComesTo a? := by
  rcases x with ⟨_, error | a | t⟩
  · rfl
  · rfl
  · exact (Job.comesTo_prepend _ t).trans (Job.comesTo_prepend _ t).symm

theorem comesTo_mk_ok {a? : Option α} (events : List ω) : (r : Rendered ω α) →
    (⟨events, .ok r⟩ : Attempt ω (Rendered ω α)).toJob.ComesTo a? ↔ r.toJob.ComesTo a?
  | .ready _ => Iff.rfl
  | .pending t => Job.comesTo_prepend (.ofEvents events) t

/-- What follows a result without events decides the end, unless the result is an error. -/
theorem comesTo_ofExcept_bind {r : Except Error β} {k : β → Attempt ω (Rendered ω α)}
    {g : β → Option α} (hk : ∀ b, (k b).toJob.ComesTo (g b)) :
    (ofExcept r >>= k).toJob.ComesTo (r.toOption.bind g) := by
  cases r with
  | error error => rfl
  | ok b => exact comesTo_prepend.mpr (hk b)

end Attempt

/-! ### Ends of trees -/

namespace Tree

/-- The attempt at the results of siblings fails, or the results come to the values of a list. -/
def SiblingsComeTo (as? : Option (List ο)) (x : Attempt ω (List (Rendered ω ο))) (n : Nat) : Prop :=
  match x.result with
  | .error _ => as? = none
  | .ok rs => rs.length = n ∧ Rendered.AllComeTo as? rs

theorem siblingsComeTo_cons {a? : Option ο} {as? : Option (List ο)}
    {x : Attempt ω (Rendered ω ο)} {y : Attempt ω (List (Rendered ω ο))} {n : Nat}
    (hx : x.toJob.ComesTo a?) (hy : SiblingsComeTo as? y n) :
    SiblingsComeTo (do let a ← a?; let as ← as?; return a :: as)
      (do let r ← x; let rs ← y; return r :: rs) (n + 1) := by
  rcases x with ⟨events, error | r⟩
  · cases hx
    rfl
  have hr : r.toJob.ComesTo a? := (Attempt.comesTo_mk_ok events r).mp hx
  rcases y with ⟨es, error | rs⟩
  · cases hy
    exact Option.bind_fun_none a?
  · exact ⟨congrArg Nat.succ hy.1, a?, as?, hr, hy.2, by cases a? <;> cases as? <;> rfl⟩

/-- A step that follows the joined siblings decides the end, if the join goes in rounds. -/
theorem comesTo_bind_joinRendered (backend : Backend ο) {as? : Option (List ο)}
    {x : Attempt ω (List (Rendered ω ο))} {n : Nat} (hn : n ≤ Job.roundLimit)
    (hx : SiblingsComeTo as? x n) {k : Rendered ω ο → Attempt ω (Rendered ω ο)} {g : ο → Option ο}
    (hk : ∀ {a? : Option ο} (r : Rendered ω ο), r.toJob.ComesTo a? →
      (k r).toJob.ComesTo (a?.bind g)) :
    (do let rs ← x; k (joinRendered backend rs)).toJob.ComesTo
      (do let as ← as?; g (backend.join as)) := by
  rcases x with ⟨events, error | rs⟩
  · cases hx
    rfl
  have hl : Rendered.IsRoundJoin rs := Or.inl (hx.1 ▸ hn)
  have hj : (joinRendered backend rs).toJob.ComesTo (as?.map backend.join) := by
    rw [joinRendered, Rendered.toJob_map]
    exact Job.comesTo_map backend.join _ (Rendered.comesTo_joinAll hl hx.2)
  have he : (do let as ← as?; g (backend.join as)) = (as?.map backend.join).bind g :=
    Option.bind_map.symm
  rw [he]
  exact Attempt.comesTo_prepend.mpr (hk _ hj)

variable {backend : Backend ο} {values : List Value}
  {answer : Component ω ο → Props ο → Except Error ο} (σ : Schedule ω ο)

mutual

/-- A narrow tree comes to what evaluation gives, under every schedule. -/
theorem comesTo_render : (path : List Nat) → (t : Tree ω ο) → t.Narrow →
    ((t.mapCalls (fun path c => c.answering (answer c) (σ path)) path).render
      backend values).toJob.ComesTo (t.answer? backend values answer)
  | _, text _, _ => rfl
  | _, reference index, _ => by
      rw [mapCalls, render, answer?]
      cases substitution values index <;> rfl
  | path, element tag attrs children, ⟨h, hs⟩ => by
      rw [mapCalls, render, answer?]
      refine Attempt.comesTo_ofExcept_bind fun texts => ?_
      refine comesTo_bind_joinRendered backend h (siblingsComeTo_renderAll path 0 children hs)
        (k := fun r => pure (r.map (backend.element tag texts)))
        (g := some ∘ backend.element tag texts) fun r hr => ?_
      rw [← Option.map_eq_bind]
      exact (Attempt.comesTo_mk_ok [] _).mpr
        ((Rendered.toJob_map _ r).symm ▸ Job.comesTo_map (backend.element tag texts) _ hr)
  | path, component c attrs children, ⟨h, hs⟩ => by
      rw [mapCalls, render, answer?]
      refine Attempt.comesTo_ofExcept_bind fun texts => ?_
      refine Attempt.comesTo_ofExcept_bind fun wholes => ?_
      refine comesTo_bind_joinRendered backend h (siblingsComeTo_renderAll path 0 children hs)
        (k := fun r => r.andThen fun output =>
          (c.answering (answer c) (σ path)).render (.ofParts texts wholes output))
        (g := fun output => (answer c (.ofParts texts wholes output)).toOption) fun r hr => ?_
      rw [Rendered.toJob_andThen]
      exact Job.comesTo_andThen (fun output => Delivery.comesTo_attempt _ _) _ hr

theorem siblingsComeTo_renderAll (path : List Nat) : (i : Nat) → (ts : List (Tree ω ο)) →
    NarrowAll ts → SiblingsComeTo (answerAll? backend values answer ts)
      (renderAll backend values
        (mapCallsAll (fun path c => c.answering (answer c) (σ path)) path i ts)) ts.length
  | _, [], _ => ⟨rfl, rfl⟩
  | i, t :: ts, ⟨h, hs⟩ => by
      rw [mapCallsAll, renderAll, answerAll?]
      exact siblingsComeTo_cons (comesTo_render (path ++ [i]) t h)
        (siblingsComeTo_renderAll path (i + 1) ts hs)

end

variable (backend values answer)

/-- A narrow tree settles under every schedule, with the value of evaluation if there is one. -/
theorem outcome_spec (t : Tree ω ο) (h : t.Narrow) :
    (t.deliver answer σ).outcome backend values ≠ .polled .stuck ∧
      ((t.deliver answer σ).outcome backend values).value? = t.answer? backend values answer :=
  (Attempt.comesTo_iff_settle _).mp (comesTo_render σ [] t h)

/-- **Timing does not show in the output.** Under every schedule a narrow tree settles. It succeeds
with a value exactly if it does so when all calls are answered at once, and it fails exactly if it
fails then. -/
theorem outcome_deliver (t : Tree ω ο) (h : t.Narrow) :
    (t.deliver answer σ).outcome backend values ≠ .polled .stuck ∧
      (∀ v, ((t.deliver answer σ).outcome backend values).value? = some v ↔
        ((t.deliver answer .prompt).outcome backend values).value? = some v) ∧
      (((t.deliver answer σ).outcome backend values).Fails ↔
        ((t.deliver answer .prompt).outcome backend values).Fails) := by
  obtain ⟨hσ, hv⟩ := outcome_spec backend values answer σ t h
  obtain ⟨hp, hw⟩ := outcome_spec backend values answer .prompt t h
  refine ⟨hσ, fun v => ?_, ?_⟩
  · rw [hv, hw]
  · rw [Settlement.fails_iff, Settlement.fails_iff, hv, hw]
    exact and_congr_left fun _ => iff_of_true hσ hp

/-- Two calls side by side, the first of which takes three polls longer than the second. -/
def slowThenFast : Tree Unit String :=
  .element "p" [] [
    .component ⟨"Slow", 1, fun props => .succeed (.ready props.children)⟩ [] [],
    .component ⟨"Fast", 2, fun props => .succeed (.ready props.children)⟩ [] []]

/-- The schedule by which the first child of the root comes late. -/
def firstLate : Schedule Unit String := fun path _ =>
  if path = [0] then .later [()] [[], [()], []] .silent else .atOnce []

/-- Every call answers with its name. -/
def answerName (c : Component Unit String) (_ : Props String) : Except Error String := .ok c.name

/-- The names come in source order, as they do without the delay. -/
theorem outcome_slowThenFast :
    slowThenFast.Narrow ∧
      ((slowThenFast.deliver answerName firstLate).outcome .text []).value? =
        some "<p>SlowFast</p>" ∧
      (slowThenFast.deliver answerName firstLate).outcome .text [] ≠ .polled .stuck ∧
      (∀ v, ((slowThenFast.deliver answerName firstLate).outcome .text []).value? = some v ↔
        ((slowThenFast.deliver answerName .prompt).outcome .text []).value? = some v) ∧
      (((slowThenFast.deliver answerName firstLate).outcome .text []).Fails ↔
        ((slowThenFast.deliver answerName .prompt).outcome .text []).Fails) := by
  have h : slowThenFast.Narrow := by
    simp [slowThenFast, Narrow, NarrowAll, Job.roundLimit]
  have hv := (outcome_spec .text [] answerName firstLate slowThenFast h).2
  exact ⟨h, hv.trans (by decide), outcome_deliver .text [] answerName firstLate slowThenFast h⟩

end Tree

end MarkupTemplate
