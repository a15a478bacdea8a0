import MarkupTemplate.Proofs.Rendering.Calls
import MarkupTemplate.Proofs.Suspension.AttemptLaws

/-!
# Folding does not show in markup

A folded tree is rendered to the same markup as the tree it came from, by the same calls of
components in the same polls, and it fails or stalls as that one does. Folding turns elements into
texts and makes lists of children shorter, so the joins of the two renderings differ in length.
What makes them agree is that a join of markup is a repeated concatenation of two results
(`MarkupTemplate.Rendered.append`), in which texts that are there from the start may be put
together beforehand.

Joins of more children than go in rounds are polled in another order, so a bound on the number of
children is needed as far as something in them is pending.

## Main definitions

* `MarkupTemplate.Rendered.append`, `MarkupTemplate.Rendered.appendAll` — markup in a row.
* `MarkupTemplate.Tree.markupAll` — the markup of siblings.
* `MarkupTemplate.Tree.Rounds` — the joins of a tree go in rounds or have nothing to wait for.

## Main results

* `MarkupTemplate.Rendered.joinAll_map_join` — a join of markup is a repeated concatenation.
* `MarkupTemplate.Tree.render_fold_of_rounds` — folding keeps the rendering.
* `MarkupTemplate.Tree.render_fold_eq` — the same for narrow trees, calls included.
-/

namespace MarkupTemplate

variable {ω ο α : Type}

/-! ### Markup in a row -/

namespace Rendered

/-- Two pieces of markup in a row. -/
def append : Rendered ω String → Rendered ω String → Rendered ω String
  | ready a, ready b => ready (a ++ b)
  | r, s => pending ((Job.both r.toJob s.toJob).map fun p => p.1 ++ p.2)

/-- The pieces of a list in a row. -/
def appendAll : List (Rendered ω String) → Rendered ω String
  | [] => ready ""
  | r :: rs => r.append (appendAll rs)

theorem toJob_append : (r s : Rendered ω String) →
    (r.append s).toJob = (Job.both r.toJob s.toJob).map fun p => p.1 ++ p.2
  | ready _, ready _ => by simp [append]
  | ready _, pending _ => rfl
  | pending _, _ => rfl

/-- Texts that are there from the start may be put together beforehand. -/
theorem ready_append_append (a b : String) : (r : Rendered ω String) →
    (ready (a ++ b)).append r = (ready a).append ((ready b).append r)
  | ready c => congrArg ready String.append_assoc
  | pending t => by simp [append, toJob, String.append_assoc]

theorem toJob_appendAll : (rs : List (Rendered ω String)) →
    (appendAll rs).toJob = (Job.joinRounds (rs.map toJob)).map String.join
  | [] => rfl
  | r :: rs => by
      rw [appendAll, toJob_append, toJob_appendAll rs, Job.both_map_right, List.map_cons,
        Job.joinRounds, Job.map_map, Job.map_map]
      simp only [String.join_cons]

theorem ready?_appendAll : (rs : List (Rendered ω String)) →
    (appendAll rs).ready? = (readyAll? rs).map String.join
  | [] => rfl
  | pending _ :: _ => rfl
  | ready a :: rs => by
      have ih := ready?_appendAll rs
      rw [appendAll, readyAll?]
      cases hr : readyAll? rs with
      | none =>
          cases hs : appendAll rs with
          | ready b => simp [hr, hs, ready?] at ih
          | pending t => rfl
      | some as =>
          have hs : appendAll rs = ready (String.join as) :=
            eq_ready_of_ready? (by rw [ih, hr]; rfl)
          rw [hs, Option.map_some, Option.map_some, String.join_cons]
          rfl

/-- A join of markup is a repeated concatenation. -/
theorem joinAll_map_join {rs : List (Rendered ω String)} (h : IsRoundJoin rs) :
    (joinAll rs).map String.join = appendAll rs := by
  refine ext_of_views ?_ ?_
  · rw [ready?_map, ready?_joinAll, ready?_appendAll]
  · rw [toJob_map, toJob_joinAll h, toJob_appendAll]

end Rendered

/-! ### The markup of siblings -/

namespace Tree

variable (values : List Value)

/-- The rendered siblings in a row, started from left to right. -/
def markupAll (ts : List (Tree ω String)) : Attempt ω (Rendered ω String) := do
  let rs ← renderAll .text values ts
  return Rendered.appendAll rs

theorem markupAll_nil : markupAll values ([] : List (Tree ω String)) = pure (.ready "") := rfl

theorem markupAll_cons (t : Tree ω String) (ts : List (Tree ω String)) :
    markupAll values (t :: ts) = do
      let r ← t.render .text values
      let s ← markupAll values ts
      return r.append s := by
  simp only [markupAll, renderAll, bind_assoc, pure_bind, Rendered.appendAll]

/-- The join of the siblings goes in rounds or has nothing to wait for. -/
def RoundsAt (ts : List (Tree ω String)) : Prop :=
  ∀ rs, (renderAll .text values ts).result = .ok rs → Rendered.IsRoundJoin rs

mutual

/-- All joins of the rendering of a tree go in rounds or have nothing to wait for. -/
def Rounds : Tree ω String → Prop
  | text _ => True
  | reference _ => True
  | element _ _ children => RoundsAt values children ∧ RoundsAll children
  | component _ _ children => RoundsAt values children ∧ RoundsAll children

/-- All joins of the rendering of siblings go in rounds or have nothing to wait for. -/
def RoundsAll : List (Tree ω String) → Prop
  | [] => True
  | t :: ts => Rounds t ∧ RoundsAll ts

end

variable {values}

/-- What is done with joined siblings is done with their markup in a row. -/
theorem bind_joinRendered {ts : List (Tree ω String)} (h : RoundsAt values ts)
    (k : Rendered ω String → Attempt ω α) :
    (do let rs ← renderAll .text values ts; k (joinRendered .text rs)) =
      markupAll values ts >>= k := by
  rw [markupAll, bind_assoc]
  rcases hx : renderAll .text values ts with ⟨events, error | rs⟩
  · rfl
  · have hj : joinRendered .text rs = Rendered.appendAll rs :=
      Rendered.joinAll_map_join (h rs (by rw [hx]))
    rw [Attempt.bind_mk_ok, Attempt.bind_mk_ok, hj, pure_bind]

theorem render_element {children : List (Tree ω String)} (h : RoundsAt values children)
    (tag : String) (attrs : Attributes) :
    (element tag attrs children).render .text values = do
      let texts ← Attempt.ofExcept (resolveAttributes values attrs)
      let r ← markupAll values children
      return r.map (elementMarkup tag texts) := by
  rw [render]
  exact bind_congr fun texts =>
    bind_joinRendered h fun r => pure (r.map (elementMarkup tag texts))

theorem render_component {children : List (Tree ω String)} (h : RoundsAt values children)
    (c : Component ω String) (attrs : Attributes) :
    (component c attrs children).render .text values = (do
      let texts ← Attempt.ofExcept (resolveAttributes values attrs)
      let wholes ← Attempt.ofExcept (wholeValues values attrs)
      let r ← markupAll values children
      r.andThen fun output => c.render (.ofParts texts wholes output)) := by
  rw [render]
  exact bind_congr fun texts => bind_congr fun wholes =>
    bind_joinRendered h fun r => r.andThen fun output => c.render (.ofParts texts wholes output)

/-! ### Folding -/

theorem length_consMerged_le : (t : Tree ω ο) → (ts : List (Tree ω ο)) →
    (consMerged t ts).length ≤ ts.length + 1
  | .text _, .text _ :: _ => by simp [consMerged]
  | .text _, [] => Nat.le_refl _
  | .text _, .reference _ :: _ => Nat.le_refl _
  | .text _, .element .. :: _ => Nat.le_refl _
  | .text _, .component .. :: _ => Nat.le_refl _
  | .reference _, _ => Nat.le_refl _
  | .element .., _ => Nat.le_refl _
  | .component .., _ => Nat.le_refl _

/-- Folding makes no list of siblings longer. -/
theorem length_foldAll_le (ts : List (Tree ω ο)) : (foldAll ts).length ≤ ts.length := by
  induction ts with
  | nil => exact Nat.le_refl 0
  | cons t ts ih => exact Nat.le_trans (length_consMerged_le _ _) (Nat.succ_le_succ ih)

/-- Two texts that meet may be joined before they are rendered. -/
theorem markupAll_consMerged : (t : Tree ω String) → (ts : List (Tree ω String)) →
    markupAll values (consMerged t ts) = markupAll values (t :: ts)
  | .text a, .text b :: ts => by
      simp only [consMerged, markupAll_cons, render, Attempt.succeed_bind, bind_assoc, pure_bind]
      exact bind_congr fun r => congrArg pure (Rendered.ready_append_append a b r)
  | .text _, [] => rfl
  | .text _, .reference _ :: _ => rfl
  | .text _, .element .. :: _ => rfl
  | .text _, .component .. :: _ => rfl
  | .reference _, _ => rfl
  | .element .., _ => rfl
  | .component .., _ => rfl

/-- Children that amount to fixed markup render to it at once. -/
theorem markupAll_of_content? {content : String} : {ts : List (Tree ω String)} →
    content? ts = some content → markupAll values ts = pure (.ready content)
  | [], h => by
      cases h
      rfl
  | [.text markup], h => by
      cases h
      rw [markupAll_cons, markupAll_nil]
      exact congrArg (fun s => pure (Rendered.ready s)) String.append_empty

/-- Attributes that are all literals resolve to these, whatever the values are. -/
theorem resolveAttributes_of_literals? : {attrs : Attributes} → {texts : List (String × String)} →
    attrs.literals? = some texts → resolveAttributes values attrs = .ok texts
  | [], _, h => by
      cases h
      rfl
  | (name, .single (.text s)) :: attrs, texts, h => by
      obtain ⟨rest, hr, rfl⟩ := Option.map_eq_some_iff.mp h
      have hs : resolveParts values (AttrValue.single (.text s)).pieces = .ok s :=
        congrArg Except.ok String.append_empty
      rw [resolveAttributes, hs, resolveAttributes_of_literals? hr]
      rfl

/-- A join that has nothing to wait for does so under every list of the same markup. -/
theorem roundsAt_foldAll {ts : List (Tree ω String)} (h : RoundsAt values ts)
    (ih : markupAll values (foldAll ts) = markupAll values ts) : RoundsAt values (foldAll ts) := by
  intro us hus
  have hr := congrArg Attempt.result ih
  simp only [markupAll, Attempt.result_bind_pure, hus] at hr
  obtain ⟨rs, hrs, he⟩ : ∃ rs, (renderAll .text values ts).result = .ok rs ∧
      Rendered.appendAll rs = Rendered.appendAll us := by
    cases hx : (renderAll .text values ts).result with
    | error error => simp [hx, Except.map] at hr
    | ok rs => exact ⟨rs, rfl, by simpa [hx, Except.map] using hr.symm⟩
  rcases h rs hrs with hl | hl
  · refine Or.inl (Nat.le_trans ?_ hl)
    rw [length_of_renderAll .text _ hus, length_of_renderAll .text _ hrs]
    exact length_foldAll_le ts
  · refine Or.inr ?_
    have hv := congrArg Rendered.ready? he
    rw [Rendered.ready?_appendAll, Rendered.ready?_appendAll] at hv
    rw [← Option.isSome_map (f := String.join), ← hv, Option.isSome_map, hl]

mutual

/-- Folding keeps the rendering of a tree whose joins go in rounds. -/
theorem render_fold_of_rounds : (t : Tree ω String) → Rounds values t →
    t.fold.render .text values = t.render .text values
  | text _, _ => rfl
  | reference _, _ => rfl
  | element tag attrs children, ⟨h, hs⟩ => by
      have ih := markupAll_foldAll children hs
      rw [fold, foldElement]
      split
      · rename_i content literals hc hl
        rw [render_element h, resolveAttributes_of_literals? hl, ← ih, markupAll_of_content? hc]
        rfl
      · rw [render_element h, render_element (roundsAt_foldAll h ih), ih]
  | component c attrs children, ⟨h, hs⟩ => by
      have ih := markupAll_foldAll children hs
      rw [fold, render_component h, render_component (roundsAt_foldAll h ih), ih]

/-- Folding keeps the markup of siblings. -/
theorem markupAll_foldAll : (ts : List (Tree ω String)) → RoundsAll values ts →
    markupAll values (foldAll ts) = markupAll values ts
  | [], _ => rfl
  | t :: ts, ⟨h, hs⟩ => by
      rw [foldAll, markupAll_consMerged, markupAll_cons, markupAll_cons,
        render_fold_of_rounds t h, markupAll_foldAll ts hs]

end

/-! ### Narrow trees -/

variable (values)

theorem roundsAt_of_length_le {ts : List (Tree ω String)} (h : ts.length ≤ Job.roundLimit) :
    RoundsAt values ts := fun _ hrs =>
  Or.inl (by rwa [length_of_renderAll .text ts hrs])

mutual

/-- In a narrow tree all joins go in rounds. -/
theorem rounds_of_narrow : (t : Tree ω String) → t.Narrow → Rounds values t
  | text _, _ => trivial
  | reference _, _ => trivial
  | element _ _ children, ⟨h, hs⟩ =>
      ⟨roundsAt_of_length_le values h, roundsAll_of_narrowAll children hs⟩
  | component _ _ children, ⟨h, hs⟩ =>
      ⟨roundsAt_of_length_le values h, roundsAll_of_narrowAll children hs⟩

theorem roundsAll_of_narrowAll : (ts : List (Tree ω String)) → NarrowAll ts → RoundsAll values ts
  | [], _ => trivial
  | t :: ts, ⟨h, hs⟩ => ⟨rounds_of_narrow t h, roundsAll_of_narrowAll ts hs⟩

end

/-- **Folding does not show in markup.** A narrow tree and its folded form render to markup with
the same result: the same error at once, the same output at once, or jobs that are equal poll by
poll. The same holds if every component also records its calls with their properties. -/
theorem render_fold_eq (t : Tree ω String) (h : t.Narrow) :
    t.fold.render .text values = t.render .text values ∧
      t.fold.traced.render .text values = t.traced.render .text values := by
  refine ⟨render_fold_of_rounds t (rounds_of_narrow values t h), ?_⟩
  rw [← fold_traced]
  exact render_fold_of_rounds t.traced
    (rounds_of_narrow values t.traced ((narrow_mapCalls _ [] t).mpr h))

/-- Two static siblings beside a call that answers in the second poll. -/
def besideLate : Tree Unit String :=
  .element "p" [] [
    .text "a ",
    .element "br" [("id", .single (.text "x"))] [],
    .component ⟨"Late", 1, fun props => ⟨[()], .ok (.pending (.waits [] (.settled [] (.ok
      props.children))))⟩⟩ [("n", .single (.reference 0))] [.text "b"]]

/-- Folding makes one text of the static siblings, and the call is made and awaited as before. -/
theorem render_fold_besideLate :
    besideLate.Narrow ∧
      besideLate.fold.render .text [.int 3] = besideLate.render .text [.int 3] ∧
      besideLate.fold.traced.render .text [.int 3] = besideLate.traced.render .text [.int 3] := by
  have h : besideLate.Narrow := by
    simp [besideLate, Narrow, NarrowAll, Job.roundLimit]
  exact ⟨h, render_fold_eq [.int 3] besideLate h⟩

end Tree

end MarkupTemplate
