import MarkupTemplate.Proofs.Rendering.Outputs
import MarkupTemplate.Proofs.Rendering.Walk
import MarkupTemplate.Proofs.Suspension.Failures

/-!
# Missing values

Rendering looks up all references of a tree before anything is polled, whatever its components
wait for, and in the order in which the references stand. So if the components give no reason to
fail at once, rendering fails at once exactly if a reference has no value, and tells of the first
one. After that nothing is looked up, so no pending result fails for a missing value.

## Main definitions

* `MarkupTemplate.Attempt.check` — the error of an attempt.
* `MarkupTemplate.Component.Steady` — components that have their say only later, and never miss a
  value.

## Main results

* `MarkupTemplate.Tree.check_render` — rendering checks the references.
* `MarkupTemplate.Tree.failsOnly_render` — a pending result fails only as its components do.
* `MarkupTemplate.Tree.render_missing` — when a missing value is reported.
-/

namespace MarkupTemplate

variable {ω ο α β : Type}

/-- The error tells of a missing value. -/
def Error.IsMissing (error : Error) : Prop :=
  ∃ index count, error = .missingSubstitution index count

/-! ### The error of an attempt -/

namespace Attempt

/-- The error of an attempt, without its value. -/
def check (x : Attempt ω α) : Except Error Unit := x.result.map fun _ => ()

theorem check_bind {x : Attempt ω α} {f : α → Attempt ω β} {c : Except Error Unit}
    (h : ∀ a, x.result = .ok a → (f a).check = c) : (x >>= f).check = x.check >>= fun _ => c := by
  rcases x with ⟨events, error | a⟩
  · rfl
  · exact h a rfl

theorem check_eq_ok_iff {x : Attempt ω α} : x.check = .ok () ↔ ∃ a, x.result = .ok a := by
  rw [check, Except.map_eq_ok_iff]
  exact exists_congr fun _ => and_iff_left rfl

theorem check_of_error {x : Attempt ω α} {error : Error} (h : x.result = .error error) :
    x.check = .error error := by
  rw [check, h]
  rfl

/-- What follows a result fails at once only if the result is there and the step fails. -/
theorem check_andThen {r : Rendered ω α} {f : α → Attempt ω (Rendered ω β)}
    (h : ∀ a, (f a).check = .ok ()) : (r.andThen f).check = .ok () := by
  cases r with
  | ready a => exact h a
  | pending job => rfl

end Attempt

/-! ### Steady components -/

/-- A component that does not fail at once, and never fails for a missing value. It may be ready,
suspend, or fail later with another error. -/
structure Component.Steady (c : Component ω ο) : Prop where
  answers : ∀ props, ∃ r, (c.render props).result = .ok r
  present : ∀ props job index count, (c.render props).result = .ok (.pending job) →
    job.run.2 ≠ .failure (.missingSubstitution index count)

namespace Component.Steady

variable {c : Component ω ο}

theorem check_render (h : c.Steady) (props : Props ο) : (c.render props).check = .ok () :=
  Attempt.check_eq_ok_iff.mpr (h.answers props)

theorem failsOnly (h : c.Steady) (props : Props ο) :
    (c.render props).toJob.FailsOnly fun error => ¬ error.IsMissing := by
  obtain ⟨r, hr⟩ := h.answers props
  rw [Attempt.failsOnly_iff_of_result hr]
  cases r with
  | ready a => trivial
  | pending job =>
    refine (Job.failsOnly_iff_run job).mpr ?_
    rintro _ he ⟨index, count, rfl⟩
    exact h.present props job index count hr he

end Component.Steady

namespace Tree

variable (backend : Backend ο) (values : List Value) {P : Error → Prop}

/-! ### Rendering checks the references -/

theorem check_resolveAttributes (attrs : Attributes) :
    (Attempt.ofExcept (resolveAttributes values attrs) : Attempt ω _).check =
      checkReferences values.length attrs.references := by
  rw [resolveAttributes_eq]
  cases checkReferences values.length attrs.references <;> rfl

mutual

/-- With steady components, rendering fails at once exactly as checking the references does. -/
theorem check_render : (t : Tree ω ο) → t.CallsOnly Component.Steady →
    (t.render backend values).check = checkReferences values.length t.references
  | text markup, _ => rfl
  | reference index, _ => by
    rw [render, substitution_eq, references]
    cases checkReferences values.length [index] <;> rfl
  | element tag attrs children, h => by
    have hc := check_renderAll children (callsOnly_element.mp h)
    rw [render, Attempt.check_bind, check_resolveAttributes, references, checkReferences_append]
    intro texts _
    rw [Attempt.check_bind (c := pure ()) fun rs _ => rfl, bind_pure_unit, hc]
  | component c attrs children, h => by
    obtain ⟨hsteady, hchildren⟩ := callsOnly_component.mp h
    have hc := check_renderAll children hchildren
    rw [render, Attempt.check_bind, check_resolveAttributes, references, checkReferences_append]
    intro texts ht
    -- the second lookup of the values of attributes finds them all
    obtain ⟨wholes, hw⟩ := exists_wholeValues (resolveAttributes_eq_ok_iff.mp ⟨texts, ht⟩)
    rw [hw, Attempt.ofExcept, ← Attempt.succeed, Attempt.succeed_bind,
      Attempt.check_bind (c := pure ()), bind_pure_unit, hc]
    exact fun rs _ => Attempt.check_andThen fun output => hsteady.check_render _

theorem check_renderAll : (ts : List (Tree ω ο)) → (∀ t ∈ ts, t.CallsOnly Component.Steady) →
    (renderAll backend values ts).check = checkReferences values.length (referencesAll ts)
  | [], _ => rfl
  | t :: ts, h => by
    obtain ⟨ht, hts⟩ := List.forall_mem_cons.mp h
    have hc := check_renderAll ts hts
    rw [renderAll, Attempt.check_bind, check_render t ht, referencesAll, checkReferences_append]
    intro r _
    rw [Attempt.check_bind (c := pure ()) fun rs _ => rfl, bind_pure_unit, hc]

end

/-! ### Pending results -/

/-- What is pending fails only as the components do, however many siblings wait. -/
theorem failsOnly_render (t : Tree ω ο)
    (h : t.CallsOnly fun c => ∀ props, (c.render props).toJob.FailsOnly P) {r : Rendered ω ο}
    (hr : (t.render backend values).result = .ok r) : r.toJob.FailsOnly P := by
  have hkeeps : backend.Keeps values fun _ => True :=
    ⟨fun _ => trivial, fun _ _ => trivial, fun _ _ _ _ => trivial, fun _ _ => trivial⟩
  have hcalls : t.CallsOnly (Component.Answers values (fun _ => True) P) :=
    fun s hs c attrs children he props _ _ =>
      (Job.failsOnly_iff_endsIn _).mp (h s hs c attrs children he props)
  exact (Job.failsOnly_iff_endsIn _).mpr (endsIn_render hkeeps t hcalls hr)

/-! ### Missing values -/

theorem callsOnly_failsOnly {t : Tree ω ο} (h : t.CallsOnly Component.Steady) :
    t.CallsOnly fun c => ∀ props, (c.render props).toJob.FailsOnly fun error => ¬ error.IsMissing :=
  fun s hs c attrs children he => (h s hs c attrs children he).failsOnly

/-- What is pending does not fail for a missing value. -/
theorem not_missing_of_pending {t : Tree ω ο} (h : t.CallsOnly Component.Steady) {job : Job ω ο}
    (hr : (t.render backend values).result = .ok (.pending job)) (index count : Nat) :
    job.run.2 ≠ .failure (.missingSubstitution index count) := by
  have hj : job.FailsOnly fun error => ¬ error.IsMissing :=
    failsOnly_render backend values t (callsOnly_failsOnly h) hr
  exact fun he => (Job.failsOnly_iff_run job).mp hj _ he ⟨index, count, rfl⟩

/-- If all references have values, the tree fails for a missing value neither at once nor later. -/
theorem not_missing_of_lt {t : Tree ω ο} (h : t.CallsOnly Component.Steady)
    (hrefs : ∀ index ∈ t.references, index < values.length) (index count : Nat) :
    (t.render backend values).settle.2 ≠ .refused (.missingSubstitution index count) ∧
      (t.render backend values).settle.2 ≠
        .polled (.failure (.missingSubstitution index count)) := by
  obtain ⟨r, hr⟩ : ∃ r, (t.render backend values).result = .ok r := by
    rw [← Attempt.check_eq_ok_iff, check_render backend values t h]
    exact checkReferences_eq_ok_iff.mpr hrefs
  have hj := (Attempt.failsOnly_iff_of_result hr).mpr
    (failsOnly_render backend values t (callsOnly_failsOnly h) hr)
  have hs := (Attempt.failsOnly_iff_settle _).mp hj (.missingSubstitution index count)
  exact ⟨fun he => hs (.inl he) ⟨index, count, rfl⟩, fun he => hs (.inr he) ⟨index, count, rfl⟩⟩

/-- **Missing values are reported at once.** With steady components, rendering fails at once exactly
if a reference has no value, and the error tells of the first such reference. No pending result
fails for a missing value. If all references have values, no part of the tree ever does. -/
theorem render_missing {t : Tree ω ο} (h : t.CallsOnly Component.Steady) :
    ((∃ error, (t.render backend values).result = .error error) ↔
        ∃ index ∈ t.references, values.length ≤ index) ∧
      (∀ error, (t.render backend values).result = .error error →
        ∃ index, t.references.find? (fun index => values.length ≤ index) = some index ∧
          error = .missingSubstitution index values.length) ∧
      (∀ s ∈ t.subtrees, ∀ job index count,
        (s.render backend values).result = .ok (.pending job) →
          job.run.2 ≠ .failure (.missingSubstitution index count)) ∧
      ((∀ index ∈ t.references, index < values.length) → ∀ s ∈ t.subtrees, ∀ index count,
        (s.render backend values).settle.2 ≠ .refused (.missingSubstitution index count) ∧
          (s.render backend values).settle.2 ≠
            .polled (.failure (.missingSubstitution index count))) := by
  have hcheck := check_render backend values t h
  refine ⟨?_, fun error he => ?_, fun s hs job index count hr => ?_, fun hrefs s hs => ?_⟩
  · have hok : (∃ r, (t.render backend values).result = .ok r) ↔
        ∀ index ∈ t.references, index < values.length := by
      rw [← Attempt.check_eq_ok_iff, hcheck, checkReferences_eq_ok_iff]
    have hnot : (∃ error, (t.render backend values).result = .error error) ↔
        ¬ ∃ r, (t.render backend values).result = .ok r := by
      cases (t.render backend values).result <;> simp
    rw [hnot, hok]
    simp only [not_forall, Nat.not_lt, exists_prop]
  · rw [Attempt.check_of_error he, checkReferences, Except.firstError] at hcheck
    split at hcheck
    · rename_i index hf
      exact ⟨index, hf, Except.error.inj hcheck⟩
    · cases hcheck
  · exact not_missing_of_pending backend values (h.of_mem hs) hr index count
  · exact not_missing_of_lt backend values (h.of_mem hs) fun index hi =>
      hrefs index (references_subset hs hi)

/-- A component that fails in its third poll, for a reason of its own. -/
def late : Component Unit String :=
  ⟨"Late", 1, fun _ => .succeed (.pending ((Job.settled [] (.error (.component "late"))).delay 2))⟩

/-- References before, in and behind a call that has to be waited for. -/
def sparse : Tree Unit String :=
  .element "p" [("id", .parts [.text "x", .reference 0])]
    [.component late [("a", .single (.reference 4))] [.reference 7], .reference 5]

theorem steady_late : late.Steady where
  answers _ := ⟨_, rfl⟩
  present _ _ _ _ h := by
    cases h
    nofun

theorem callsOnly_sparse : sparse.CallsOnly Component.Steady := by
  have hleaf : ∀ index, (reference index : Tree Unit String).CallsOnly Component.Steady :=
    fun _ => forall_mem_subtrees.mpr ⟨nofun, nofun⟩
  refine callsOnly_element.mpr (List.forall_mem_cons.mpr ⟨?_, ?_⟩)
  · exact callsOnly_component.mpr ⟨steady_late, List.forall_mem_singleton.mpr (hleaf 7)⟩
  · exact List.forall_mem_singleton.mpr (hleaf 5)

theorem render_missing_sparse :
    sparse.CallsOnly Component.Steady ∧ sparse.references = [0, 4, 7, 5] ∧
      (sparse.render .text [.null]).result = .error (.missingSubstitution 4 1) ∧
      ∃ job, (sparse.render .text (List.replicate 8 .null)).result = .ok (.pending job) ∧
        job.run.2 = .failure (.component "late") ∧
          ∀ index count, job.run.2 ≠ .failure (.missingSubstitution index count) := by
  have hrefs : sparse.references = [0, 4, 7, 5] := rfl
  obtain ⟨hfails, hfirst, -, -⟩ := render_missing .text [.null] callsOnly_sparse
  obtain ⟨error, he⟩ := hfails.mpr ⟨4, by decide, by decide⟩
  obtain ⟨index, hi, rfl⟩ := hfirst error he
  obtain rfl : index = 4 := Option.some.inj hi.symm
  obtain ⟨-, -, hpending, -⟩ := render_missing .text (List.replicate 8 .null) callsOnly_sparse
  refine ⟨callsOnly_sparse, hrefs, he, _, rfl, rfl, fun index count => ?_⟩
  exact hpending sparse (mem_subtrees_self _) _ index count rfl

end Tree

end MarkupTemplate
