import MarkupTemplate.Proofs.KeyedLists
import MarkupTemplate.Proofs.Rendering.Calls
import MarkupTemplate.Proofs.Suspension.Results
import MarkupTemplate.Proofs.Template.Subtrees

/-!
# What trees are rendered to

An output is made by the operations of the backend and by the components, and by nothing else. So
a property of outputs that all operations keep, and all components when their children have it,
holds for whatever a tree is rendered to, at once or after any number of polls.

## Main definitions

* `MarkupTemplate.Backend.Keeps` — the operations of a backend keep a property of outputs.
* `MarkupTemplate.Component.Answers` — a component that is called in a template keeps it.

## Main results

* `MarkupTemplate.Tree.endsIn_render` — what a tree ends in.
-/

namespace MarkupTemplate

variable {ω ο : Type}

/-- The operations of a backend keep a property of outputs, the values being from a list. -/
structure Backend.Keeps (backend : Backend ο) (values : List Value) (p : ο → Prop) : Prop where
  static : ∀ markup, p (backend.static markup)
  value : ∀ v ∈ values, p (backend.value v)
  element : ∀ tag attrs output, p output → p (backend.element tag attrs output)
  join : ∀ outputs, (∀ output ∈ outputs, p output) → p (backend.join outputs)

/-- Called with children that have the property `p` and with whole values from a list, the component
ends in an output that has it or in an error with the property `q`. -/
def Component.Answers (values : List Value) (p : ο → Prop) (q : Error → Prop)
    (c : Component ω ο) : Prop :=
  ∀ props, p props.children → (∀ name v, props.value? name = some v → v ∈ values) →
    (c.render props).toJob.EndsIn p q

/-! ### Whole values -/

theorem mem_of_substitution {values : List Value} {index : Nat} {v : Value}
    (h : substitution values index = .ok v) : v ∈ values := by
  rw [substitution] at h
  split at h
  · rename_i w hw
    cases h
    exact List.mem_of_getElem? hw
  · cases h

theorem mem_of_wholeValues {values : List Value} {attrs : Attributes}
    {wholes : List (String × Value)} (h : wholeValues values attrs = .ok wholes) :
    ∀ entry ∈ wholes, entry.2 ∈ values := by
  induction attrs using wholeValues.induct generalizing wholes with
  | case1 =>
    cases h
    exact List.forall_mem_nil _
  | case2 name index attrs ih =>
    rw [wholeValues] at h
    obtain ⟨v, hv, h⟩ := Except.bind_eq_ok_iff.mp h
    obtain ⟨rest, hrest, h⟩ := Except.bind_eq_ok_iff.mp h
    cases h
    exact List.forall_mem_cons.mpr ⟨mem_of_substitution hv, ih hrest⟩
  | case3 entry attrs hne ih =>
    rw [wholeValues] at h
    · exact ih h
    · exact hne

/-- The values that a component is given whole are those of the tree. -/
theorem mem_of_value?_ofParts {values : List Value} {attrs : Attributes}
    {texts : List (String × String)} {wholes : List (String × Value)}
    (h : wholeValues values attrs = .ok wholes) (output : ο) {name : String} {v : Value}
    (hv : (Props.ofParts texts wholes output).value? name = some v) : v ∈ values :=
  mem_of_wholeValues h _ (KeyedList.mem_of_mem_ofPairs (KeyedList.mem_of_get? hv))

namespace Tree

variable {backend : Backend ο} {values : List Value} {p : ο → Prop} {q : Error → Prop}

theorem endsIn_joinRendered (h : backend.Keeps values p) {rs : List (Rendered ω ο)}
    (hrs : ∀ r ∈ rs, r.toJob.EndsIn p q) : (joinRendered backend rs).toJob.EndsIn p q := by
  rw [joinRendered, Rendered.toJob_map, Job.endsIn_map]
  exact (Rendered.endsIn_joinAll hrs).mono h.join

mutual

/-- What a tree is rendered to, however many siblings wait. -/
theorem endsIn_render (h : backend.Keeps values p) : (t : Tree ω ο) →
    t.CallsOnly (Component.Answers values p q) → {r : Rendered ω ο} →
      (t.render backend values).result = .ok r → r.toJob.EndsIn p q
  | text markup, _, _, hr => by
    cases hr
    exact h.static markup
  | reference index, _, _, hr => by
    obtain ⟨v, hv, rfl⟩ := exists_of_render_reference hr
    exact h.value v (mem_of_substitution hv)
  | element tag attrs children, ht, _, hr => by
    obtain ⟨texts, rs, -, hrs, rfl⟩ := exists_of_render_element hr
    rw [Rendered.toJob_map, Job.endsIn_map]
    have hj := endsIn_joinRendered h (endsIn_renderAll h children (callsOnly_element.mp ht) hrs)
    exact hj.mono fun output ho => h.element tag texts output ho
  | component c attrs children, ht, _, hr => by
    obtain ⟨hc, hchildren⟩ := callsOnly_component.mp ht
    obtain ⟨texts, wholes, rs, -, hw, hrs, hr⟩ := exists_of_render_component hr
    have hj := endsIn_joinRendered h (endsIn_renderAll h children hchildren hrs)
    refine (Attempt.endsIn_iff_of_result hr).mp (Rendered.endsIn_andThen (fun output ho => ?_) hj)
    exact hc _ ho fun name v hv => mem_of_value?_ofParts hw output hv

theorem endsIn_renderAll (h : backend.Keeps values p) : (ts : List (Tree ω ο)) →
    (∀ t ∈ ts, t.CallsOnly (Component.Answers values p q)) → {rs : List (Rendered ω ο)} →
      (renderAll backend values ts).result = .ok rs → ∀ r ∈ rs, r.toJob.EndsIn p q
  | [], _, _, hrs => by
    cases hrs
    exact nofun
  | t :: ts, ht, _, hrs => by
    obtain ⟨ht, hts⟩ := List.forall_mem_cons.mp ht
    obtain ⟨r, rest, hr, hrest, rfl⟩ := exists_of_renderAll_cons hrs
    exact List.forall_mem_cons.mpr ⟨endsIn_render h t ht hr, endsIn_renderAll h ts hts hrest⟩

end

end Tree

end MarkupTemplate
