import MarkupTemplate.Proofs.Markup.Reading

/-!
# Text in front of a document

A byte-order mark is dropped from the front of a document, but behind a tag it is text. What
difference this makes is seen by reading on with a text already pending: it joins the first text of
the document, or becomes a text of its own. Acceptance does not change, and neither does anything
behind the first text.

## Main definitions

* `MarkupTemplate.Dom.Node.prependText` — a forest with text put in front.

## Main results

* `MarkupTemplate.Markup.resume_addText` — reading behind a text that is pending.
-/

namespace MarkupTemplate

open Dom Text

/-- The nodes with text put in front, as part of the first text if the nodes begin with one. -/
def Dom.Node.prependText (front : List Char) : List Node → List Node
  | .text content :: ns => .text (String.ofList front ++ content) :: ns
  | ns => .text (String.ofList front) :: ns

namespace Markup

namespace Builder

open Dom.Node (prependText)

variable (front : List Char)

/-- The builder with text put in front of the nodes outside all open elements. -/
def shift (b : Builder) : Builder :=
  { b with roots := (prependText front b.roots.reverse).reverse }

/-- A builder and one that has read text before. The text is pending until a node comes. -/
inductive Prefaced : Builder → Builder → Prop
  | start (pending : List Char) (allowance : Nat) :
      Prefaced ⟨[], [], pending, allowance⟩ ⟨[], [], pending ++ front.reverse, allowance⟩
  | begun {b : Builder} : b.roots ≠ [] ∨ b.opened ≠ [] → Prefaced b (b.shift front)

variable {front} {b b' : Builder} {n : Node}

theorem prependText_append {ns : List Node} (h : ns ≠ [] ∨ n.text? = none) :
    prependText front (ns ++ [n]) = prependText front ns ++ [n] := by
  cases ns with
  | nil =>
    have hn := h.resolve_left (by simp)
    cases n with
    | text content => cases hn
    | _ => rfl
  | cons m ns => cases m <;> rfl

theorem shift_add (h : b.roots ≠ [] ∨ b.opened ≠ [] ∨ n.text? = none) :
    (b.add n).shift front = (b.shift front).add n := by
  obtain ⟨roots, opened, pending, allowance⟩ := b
  cases opened with
  | nil =>
    have hp : prependText front (roots.reverse ++ [n]) = prependText front roots.reverse ++ [n] :=
      prependText_append (h.imp (by simp) fun h => h.resolve_left (by simp))
    simp only [shift, add, List.reverse_cons, hp, List.reverse_append]
    rfl
  | cons e es => rfl

theorem begun_add (b : Builder) (n : Node) : (b.add n).roots ≠ [] ∨ (b.add n).opened ≠ [] := by
  obtain ⟨roots, opened, pending, allowance⟩ := b
  cases opened with
  | nil => exact .inl (List.cons_ne_nil n roots)
  | cons e es => exact .inr (List.cons_ne_nil _ es)

/-- With the text that is pending made a node, the builders differ in front only. -/
theorem Prefaced.flush (hf : front ≠ []) (h : Prefaced front b b') :
    b'.flush = b.flush.shift front := by
  cases h with
  | start pending allowance =>
    have hadd : (⟨[], [], pending ++ front.reverse, allowance⟩ : Builder).text =
        front ++ pending.reverse := by simp [text]
    rw [Builder.flush, hadd]
    split
    · rename_i he
      exact absurd (List.append_eq_nil_iff.mp he).1 hf
    · cases pending with
      | nil => simp [add, shift, Builder.flush, text, prependText]
      | cons c pending => simp [add, shift, Builder.flush, text, prependText]
  | begun h =>
    have ht : (b.shift front).text = b.text := rfl
    rw [Builder.flush, Builder.flush, ht]
    split
    · rfl
    · rw [← shift_add (h.imp_right .inl)]
      rfl

theorem Prefaced.push (hf : front ≠ []) (h : Prefaced front b b') (hn : n.text? = none) :
    Prefaced front (b.push n) (b'.push n) := by
  rw [Builder.push, Builder.push, h.flush hf, ← shift_add (.inr (.inr hn))]
  exact .begun (begun_add _ n)

theorem Prefaced.openElement (hf : front ≠ []) (h : Prefaced front b b') (name : String)
    (attrs : KeyedList String String) :
    Prefaced front (b.openElement name attrs) (b'.openElement name attrs) := by
  rw [Builder.openElement, Builder.openElement, h.flush hf]
  exact .begun (b := { b.flush with opened := ⟨name, attrs, []⟩ :: b.flush.opened })
    (.inr (List.cons_ne_nil _ _))

theorem Prefaced.addText (h : Prefaced front b b') (cs : List Char) :
    Prefaced front (b.addText cs) (b'.addText cs) := by
  cases h with
  | start pending allowance =>
    rw [Builder.addText, Builder.addText, ← List.append_assoc]
    exact .start _ _
  | begun h => exact .begun h

theorem Prefaced.withAllowance (h : Prefaced front b b') (allowance : Nat) :
    Prefaced front { b with allowance } { b' with allowance } := by
  cases h with
  | start pending _ => exact .start pending allowance
  | begun h => exact .begun (b := { b with allowance }) h

theorem Prefaced.allowance_eq (h : Prefaced front b b') : b'.allowance = b.allowance := by
  cases h <;> rfl

/-- Results that go together: builders with and without the text, or the same error. -/
def PrefacedResult (front : List Char) : (x y : Except ParseError Builder) → Prop
  | .ok b, y => ∃ b', y = .ok b' ∧ Prefaced front b b'
  | .error error, y => y = .error error

theorem Prefaced.close (hf : front ≠ []) (h : Prefaced front b b') (name : String) :
    PrefacedResult front (b.close name) (b'.close name) := by
  have ho : b'.flush.opened = b.flush.opened := by
    rw [h.flush hf]
    rfl
  rw [Builder.close, Builder.close, ho]
  split
  · rfl
  · rename_i e es _
    split
    · refine ⟨_, rfl, ?_⟩
      have hadd : ({ b.flush with opened := es }.add e.node).shift front =
          ({ b.flush with opened := es }.shift front).add e.node := shift_add (.inr (.inr rfl))
      rw [h.flush hf]
      exact hadd ▸ .begun (begun_add _ e.node)
    · rfl

/-- A token has the same effect behind the text. -/
theorem Prefaced.step (hf : front ≠ []) (h : Prefaced front b b') (mode : Mode) (t : Token) :
    PrefacedResult front (b.step mode t) (b'.step mode t) := by
  cases t with
  | startTag name attrs =>
    have h' := h.withAllowance (b.allowance + 1)
    rw [Builder.step, Builder.step, h.allowance_eq]
    split
    · exact ⟨_, rfl, h'.push hf rfl⟩
    · exact ⟨_, rfl, h'.openElement hf _ _⟩
  | endTag name =>
    rw [Builder.step, Builder.step, endTag, endTag, h.allowance_eq]
    split
    · rfl
    · rename_i allowance _
      have h' := h.withAllowance allowance
      split
      · exact ⟨_, rfl, h'⟩
      · exact h'.close hf _
  | text | reference | cdata => exact ⟨_, rfl, h.addText _⟩
  | declaration => exact ⟨_, rfl, h⟩
  | emptyTag | comment | doctype => exact ⟨_, rfl, h.push hf rfl⟩
  | instruction content => exact ⟨_, rfl, h.push hf rfl⟩

theorem Prefaced.mirrors_finish (hf : front ≠ []) (h : Prefaced front b b') :
    Mirrors (prependText front) b.finish b'.finish := by
  rw [finish, finish, h.flush hf]
  have ho : (b.flush.shift front).opened = b.flush.opened := rfl
  rw [ho]
  split
  · exact congrArg Except.ok (List.reverse_reverse _)
  · exact ⟨_, rfl⟩

end Builder

/-- Reading goes on behind the text as it does without it. -/
theorem resume_prefaced {front : List Char} (hf : front ≠ []) {whole whole' cs : List Char}
    {mode : Mode} {b b' : Builder} (h : Builder.Prefaced front b b') :
    Mirrors (Node.prependText front) (resume whole mode b cs) (resume whole' mode b' cs) := by
  fun_induction tokens cs generalizing b b' with
  | case1 =>
    rw [resume_nil, resume_nil]
    exact h.mirrors_finish hf
  | case2 c cs stop hr =>
    rw [resume_of_fault hr, resume_of_fault hr]
    exact ⟨_, rfl⟩
  | case3 c cs t rest hr ts stop? hts ih =>
    rw [resume_of_readToken hr, resume_of_readToken hr]
    have hstep := h.step hf mode t
    cases hs : b.step mode t with
    | error error =>
      rw [hs] at hstep
      have hs' : b'.step mode t = .error error := hstep
      rw [hs']
      exact ⟨error, rfl⟩
    | ok c =>
      rw [hs] at hstep
      obtain ⟨c', hs', hc⟩ := hstep
      rw [hs']
      exact ih hc

/-- **Text in front of a document** joins its first text or comes before its first node, and
decides nothing else. -/
theorem resume_addText {front : List Char} (hf : front ≠ []) (whole whole' cs : List Char)
    (mode : Mode) :
    Mirrors (Node.prependText front) (resume whole mode .empty cs)
      (resume whole' mode (Builder.empty.addText front) cs) := by
  have h : Builder.Prefaced front .empty (Builder.empty.addText front) := by
    show Builder.Prefaced front ⟨[], [], [], 0⟩ ⟨[], [], front.reverse ++ [], 0⟩
    rw [List.append_nil]
    exact .start [] 0
  exact resume_prefaced hf h

end Markup

end MarkupTemplate
