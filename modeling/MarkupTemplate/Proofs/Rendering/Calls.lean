import MarkupTemplate.Proofs.Suspension.AttemptLaws
import MarkupTemplate.Rendering.Render

/-!
# Calls of components

A tree can be given other components without a change of its texts, references, elements and
attributes. Every call node is named by its path, the positions of children that lead to it from
the root. Rendering calls a node at most once, so a choice for each path is a choice for each
call.

Tracing is one use of this: every component first records its own call, with the properties that
it gets, and then does what it did before. Two trees whose traced forms render alike make the same
calls with the same properties in the same polls.

## Main definitions

* `MarkupTemplate.Tree.mapCalls` — the tree with other components.
* `MarkupTemplate.Tree.traced` — the tree whose components record their calls.
* `MarkupTemplate.Tree.Narrow` — no node has more children than a join in rounds takes.

## Main results

* `MarkupTemplate.Tree.exists_of_render_element`, `MarkupTemplate.Tree.exists_of_render_component`
  — what rendering has done if there is no error.
* `MarkupTemplate.Tree.fold_mapCalls` — folding leaves the calls alone.
-/

namespace MarkupTemplate

variable {ω ω' ο α : Type}

/-! ### Renaming events -/

/-- The record with its events renamed. -/
def Poll.mapEvents (f : ω → ω') (p : Poll ω) : Poll ω' := ⟨p.events.map f, p.woken⟩

/-- The job with its events renamed. -/
def Job.mapEvents (f : ω → ω') : Job ω α → Job ω' α
  | settles poll result => settles (poll.mapEvents f) result
  | waits events next => waits (events.map f) (next.mapEvents f)
  | stalls poll => stalls (poll.mapEvents f)

/-- The result with the events of its job renamed. -/
def Rendered.mapEvents (f : ω → ω') : Rendered ω α → Rendered ω' α
  | ready a => ready a
  | pending job => pending (job.mapEvents f)

/-- The attempt at a result with all its events renamed. -/
def Attempt.mapEvents (f : ω → ω') (x : Attempt ω (Rendered ω α)) :
    Attempt ω' (Rendered ω' α) :=
  ⟨x.events.map f, x.result.map (Rendered.mapEvents f)⟩

/-! ### Other components for a tree -/

/-- What a traced run records. -/
inductive CallEvent (ω ο : Type) where
  /-- A component is called with these properties. -/
  | call (c : Component ω ο) (props : Props ο)
  /-- A component records an event of its own. -/
  | own (event : ω)

/-- The component that records its calls. -/
def Component.traced (c : Component ω ο) : Component (CallEvent ω ο) ο where
  name := c.name
  identity := c.identity
  render props := ((c.render props).mapEvents .own).prepend [.call c props]

namespace Tree

mutual

/-- The tree with the component of every call replaced; the path of a call is given to `f`. -/
def mapCalls (f : List Nat → Component ω ο → Component ω' ο) (path : List Nat) :
    Tree ω ο → Tree ω' ο
  | text markup => text markup
  | reference index => reference index
  | element tag attrs children => element tag attrs (mapCallsAll f path 0 children)
  | component c attrs children => component (f path c) attrs (mapCallsAll f path 0 children)

/-- The children of a node, from the position `i` on, with the components of calls replaced. -/
def mapCallsAll (f : List Nat → Component ω ο → Component ω' ο) (path : List Nat) (i : Nat) :
    List (Tree ω ο) → List (Tree ω' ο)
  | [] => []
  | t :: ts => mapCalls f (path ++ [i]) t :: mapCallsAll f path (i + 1) ts

end

/-- The tree whose components record their calls. -/
def traced (t : Tree ω ο) : Tree (CallEvent ω ο) ο := t.mapCalls (fun _ c => c.traced) []

mutual

/-- No node has more children than a join in rounds takes. -/
def Narrow : Tree ω ο → Prop
  | text _ => True
  | reference _ => True
  | element _ _ children => children.length ≤ Job.roundLimit ∧ NarrowAll children
  | component _ _ children => children.length ≤ Job.roundLimit ∧ NarrowAll children

/-- All trees of a list are narrow. -/
def NarrowAll : List (Tree ω ο) → Prop
  | [] => True
  | t :: ts => Narrow t ∧ NarrowAll ts

end

section Shape

variable (f : List Nat → Component ω ο → Component ω' ο)

@[simp] theorem length_mapCallsAll (path : List Nat) : (i : Nat) → (ts : List (Tree ω ο)) →
    (mapCallsAll f path i ts).length = ts.length
  | _, [] => rfl
  | i, _ :: ts => congrArg Nat.succ (length_mapCallsAll path (i + 1) ts)

mutual

theorem narrow_mapCalls : (path : List Nat) → (t : Tree ω ο) →
    (t.mapCalls f path).Narrow ↔ t.Narrow
  | _, text _ => Iff.rfl
  | _, reference _ => Iff.rfl
  | path, element _ _ children => by
      simp only [mapCalls, Narrow, length_mapCallsAll, narrowAll_mapCallsAll path 0 children]
  | path, component _ _ children => by
      simp only [mapCalls, Narrow, length_mapCallsAll, narrowAll_mapCallsAll path 0 children]

theorem narrowAll_mapCallsAll (path : List Nat) : (i : Nat) → (ts : List (Tree ω ο)) →
    NarrowAll (mapCallsAll f path i ts) ↔ NarrowAll ts
  | _, [] => Iff.rfl
  | i, t :: ts => by
      simp only [mapCallsAll, NarrowAll, narrow_mapCalls (path ++ [i]) t,
        narrowAll_mapCallsAll path (i + 1) ts]

end

/-- What static children amount to does not depend on components. -/
theorem content?_mapCallsAll (path : List Nat) (i : Nat) : (ts : List (Tree ω ο)) →
    content? (mapCallsAll f path i ts) = content? ts
  | [] => rfl
  | [.text _] => rfl
  | [.reference _] => rfl
  | [.element ..] => rfl
  | [.component ..] => rfl
  | .text _ :: _ :: _ => rfl
  | .reference _ :: _ :: _ => rfl
  | .element .. :: _ :: _ => rfl
  | .component .. :: _ :: _ => rfl

end Shape

/-! ### Results of rendering -/

section Results

variable {backend : Backend ο} {attrs : Attributes} {children ts : List (Tree ω ο)}
  {r : Rendered ω ο} {rs : List (Rendered ω ο)}

theorem exists_of_render_reference {index : Nat}
    (h : (render backend values (reference index : Tree ω ο)).result = .ok r) :
    ∃ v, substitution values index = .ok v ∧ r = .ready (backend.value v) := by
  rw [render, Attempt.result_bind_eq_ok_iff] at h
  obtain ⟨v, hv, h⟩ := h
  exact ⟨v, hv, (Except.ok.inj h).symm⟩

/-- An element that renders without an error is put around the joined results of its children. -/
theorem exists_of_render_element {tag : String}
    (h : (render backend values (element tag attrs children)).result = .ok r) :
    ∃ texts rs, resolveAttributes values attrs = .ok texts ∧
      (renderAll backend values children).result = .ok rs ∧
      r = (joinRendered backend rs).map (backend.element tag texts) := by
  rw [render, Attempt.result_bind_eq_ok_iff] at h
  obtain ⟨texts, ht, h⟩ := h
  obtain ⟨rs, hrs, h⟩ := Attempt.result_bind_eq_ok_iff.mp h
  exact ⟨texts, rs, ht, hrs, (Except.ok.inj h).symm⟩

/-- A call that renders without an error goes on from the joined results of its children. -/
theorem exists_of_render_component {c : Component ω ο}
    (h : (render backend values (component c attrs children)).result = .ok r) :
    ∃ texts wholes rs, resolveAttributes values attrs = .ok texts ∧
      wholeValues values attrs = .ok wholes ∧
      (renderAll backend values children).result = .ok rs ∧
      ((joinRendered backend rs).andThen fun output =>
        c.render (.ofParts texts wholes output)).result = .ok r := by
  rw [render, Attempt.result_bind_eq_ok_iff] at h
  obtain ⟨texts, ht, h⟩ := h
  obtain ⟨wholes, hw, h⟩ := Attempt.result_bind_eq_ok_iff.mp h
  obtain ⟨rs, hrs, h⟩ := Attempt.result_bind_eq_ok_iff.mp h
  exact ⟨texts, wholes, rs, ht, hw, hrs, h⟩

theorem exists_of_renderAll_cons {t : Tree ω ο}
    (h : (renderAll backend values (t :: ts)).result = .ok rs) :
    ∃ r us, (t.render backend values).result = .ok r ∧
      (renderAll backend values ts).result = .ok us ∧ rs = r :: us := by
  rw [renderAll, Attempt.result_bind_eq_ok_iff] at h
  obtain ⟨r, hr, h⟩ := h
  obtain ⟨us, hus, h⟩ := Attempt.result_bind_eq_ok_iff.mp h
  exact ⟨r, us, hr, hus, (Except.ok.inj h).symm⟩

end Results

/-- Every sibling that renders without an error gives one result. -/
theorem length_of_renderAll (backend : Backend ο) : (ts : List (Tree ω ο)) →
    {rs : List (Rendered ω ο)} → (renderAll backend values ts).result = .ok rs →
      rs.length = ts.length
  | [], _, h => by
      cases h
      rfl
  | t :: ts, _, h => by
      obtain ⟨r, us, -, hus, rfl⟩ := exists_of_renderAll_cons h
      rw [List.length_cons, List.length_cons, length_of_renderAll backend ts hus]

/-! ### Folding and calls -/

section Folding

variable (f : Component ω ο → Component ω' ο)

mutual

/-- A choice of components that does not look at paths may be made on any path. -/
theorem mapCalls_const (p q : List Nat) : (t : Tree ω ο) →
    t.mapCalls (fun _ => f) p = t.mapCalls (fun _ => f) q
  | text _ => rfl
  | reference _ => rfl
  | element tag attrs children =>
      congrArg (element tag attrs) (mapCallsAll_const p q 0 0 children)
  | component c attrs children =>
      congrArg (component (f c) attrs) (mapCallsAll_const p q 0 0 children)

theorem mapCallsAll_const (p q : List Nat) : (i j : Nat) → (ts : List (Tree ω ο)) →
    mapCallsAll (fun _ => f) p i ts = mapCallsAll (fun _ => f) q j ts
  | _, _, [] => rfl
  | i, j, t :: ts => by
      rw [mapCallsAll, mapCallsAll, mapCalls_const (p ++ [i]) (q ++ [j]) t,
        mapCallsAll_const p q (i + 1) (j + 1) ts]

end

theorem mapCallsAll_const_cons (t : Tree ω ο) (ts : List (Tree ω ο)) :
    mapCallsAll (fun _ => f) [] 0 (t :: ts) =
      t.mapCalls (fun _ => f) [] :: mapCallsAll (fun _ => f) [] 0 ts := by
  rw [mapCallsAll, mapCalls_const f ([] ++ [0]) [] t, mapCallsAll_const f [] [] (0 + 1) 0 ts]

private theorem mapCallsAll_consMerged : (t : Tree ω ο) → (ts : List (Tree ω ο)) →
    mapCallsAll (fun _ => f) [] 0 (consMerged t ts) =
      consMerged (t.mapCalls (fun _ => f) []) (mapCallsAll (fun _ => f) [] 0 ts)
  | .text _, [] => rfl
  | .text _, u :: _ => by
      cases u <;> simp only [consMerged, mapCallsAll_const_cons, mapCalls]
  | .reference _, ts => mapCallsAll_const_cons f _ ts
  | .element .., ts => mapCallsAll_const_cons f _ ts
  | .component .., ts => mapCallsAll_const_cons f _ ts

mutual

/-- Folding leaves the calls of a tree alone. -/
theorem fold_mapCalls : (t : Tree ω ο) →
    (t.mapCalls (fun _ => f) []).fold = t.fold.mapCalls (fun _ => f) []
  | text _ => rfl
  | reference _ => rfl
  | element tag attrs children => by
      rw [mapCalls, fold, fold, foldAll_mapCallsAll children, foldElement, foldElement,
        content?_mapCallsAll]
      split <;> rfl
  | component c attrs children => by
      rw [mapCalls, fold, fold, foldAll_mapCallsAll children, mapCalls]

theorem foldAll_mapCallsAll : (ts : List (Tree ω ο)) →
    foldAll (mapCallsAll (fun _ => f) [] 0 ts) = mapCallsAll (fun _ => f) [] 0 (foldAll ts)
  | [] => rfl
  | t :: ts => by
      rw [mapCallsAll_const_cons, foldAll, foldAll, fold_mapCalls t, foldAll_mapCallsAll ts,
        mapCallsAll_consMerged]

end

theorem fold_traced (t : Tree ω ο) : t.traced.fold = t.fold.traced := fold_mapCalls _ t

end Folding

end Tree

end MarkupTemplate
