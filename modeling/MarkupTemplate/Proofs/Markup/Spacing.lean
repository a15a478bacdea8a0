import Mathlib.Data.List.Chain
import MarkupTemplate.Proofs.Markup.Lenient

/-!
# The texts of a forest are apart

A builder makes a text node only when something else comes that ends the text, and none of an
empty text. In what is read, therefore, no list of children holds an empty text or two texts in a
row. Between two tokens the innermost list does not end in a text either, since the text that comes
last is still pending then.

## Main definitions

* `MarkupTemplate.Dom.Node.Spaced` — a node with separated children at all depths.
* `MarkupTemplate.Markup.Builder.Spaced` — a builder that holds separated nodes only.

## Main results

* `MarkupTemplate.Dom.Separated.reverse`
* `MarkupTemplate.Markup.spaced_of_parseChars` — what is read is separated at all depths.
-/

namespace MarkupTemplate

open Dom Text

namespace Dom

/-! ### Separated nodes -/

theorem separated_iff {ns : List Node} :
    Separated ns ↔ .text "" ∉ ns ∧
      ns.IsChain fun m n => ¬ (startsText [m] = true ∧ startsText [n] = true) := by
  have hstart (ns : List Node) :
      startsText ns = false ↔ ∀ n ∈ ns.head?, ¬ startsText [n] = true := by
    rcases ns with _ | ⟨n, ns⟩
    · simp [startsText]
    · cases n <;> simp [startsText]
  induction ns with
  | nil => simp [Separated]
  | cons n ns ih =>
    cases n with
    | text s =>
      have htext : startsText [.text s] = true := rfl
      simp only [Separated, ih, hstart, htext, List.isChain_cons, List.mem_cons, not_or, true_and,
        ne_eq, Node.text.injEq]
      constructor
      · rintro ⟨hs, hn, hm, hc⟩
        exact ⟨⟨Ne.symm hs, hm⟩, hn, hc⟩
      · rintro ⟨⟨hs, hm⟩, hn, hc⟩
        exact ⟨Ne.symm hs, hn, hm, hc⟩
    | _ => simp [Separated, ih, List.isChain_cons, startsText]

/-- It does not matter from which end the nodes are listed. -/
theorem Separated.reverse {ns : List Node} (h : Separated ns) : Separated ns.reverse := by
  obtain ⟨hm, hc⟩ := separated_iff.mp h
  refine separated_iff.mpr ⟨fun he => hm (List.mem_reverse.mp he), List.isChain_reverse.mpr ?_⟩
  exact hc.imp fun m n hmn ⟨hn, hm⟩ => hmn ⟨hm, hn⟩

namespace Node

mutual

/-- A node with separated children, whose children are such nodes. -/
def Spaced : Node → Prop
  | .element _ _ cs => Separated cs ∧ SpacedAll cs
  | .fragment cs => Separated cs ∧ SpacedAll cs
  | _ => True

/-- Nodes whose children are separated at all depths. -/
def SpacedAll : List Node → Prop
  | [] => True
  | n :: ns => n.Spaced ∧ SpacedAll ns

end

theorem spacedAll_iff {ns : List Node} : SpacedAll ns ↔ ∀ n ∈ ns, n.Spaced := by
  induction ns with
  | nil => exact iff_of_true trivial nofun
  | cons n ns ih => rw [SpacedAll, ih, List.forall_mem_cons]

theorem spacedAll_reverse {ns : List Node} : SpacedAll ns.reverse ↔ SpacedAll ns := by
  simp [spacedAll_iff]

end Node

end Dom

namespace Markup.Builder

open Dom.Node (SpacedAll spacedAll_reverse)

/-- The nodes beside which the next one comes, the last first. -/
def inner (b : Builder) : List Node :=
  match b.opened with
  | [] => b.roots
  | e :: _ => e.children

/-- A builder that holds separated nodes only. -/
structure Spaced (b : Builder) : Prop where
  roots : Separated b.roots ∧ SpacedAll b.roots
  opened : ∀ e ∈ b.opened, Separated e.children ∧ SpacedAll e.children

variable {b b' : Builder}

theorem Spaced.add (h : b.Spaced) {n : Node} (hn : Separated [n]) (hs : n.Spaced)
    (hi : startsText [n] = true → startsText b.inner = false) :
    (b.add n).Spaced ∧ (b.add n).inner = n :: b.inner := by
  obtain ⟨roots, opened, pending, allowance⟩ := b
  cases opened with
  | nil => exact ⟨⟨⟨separated_cons hn h.roots.1 hi, hs, h.roots.2⟩, h.opened⟩, rfl⟩
  | cons e es =>
    obtain ⟨he, hes⟩ := List.forall_mem_cons.mp h.opened
    exact ⟨⟨h.roots, List.forall_mem_cons.mpr ⟨⟨separated_cons hn he.1 hi, hs, he.2⟩, hes⟩⟩, rfl⟩

theorem Spaced.flush (h : b.Spaced) (hi : startsText b.inner = false) : b.flush.Spaced := by
  rw [Builder.flush]
  split
  · exact h
  · rename_i cs hcs
    have hne : String.ofList b.text ≠ "" := fun he => hcs (String.ofList_eq_empty_iff.mp he)
    obtain ⟨ha, -⟩ := h.add (n := .text (String.ofList b.text)) ⟨hne, rfl, trivial⟩ trivial
      fun _ => hi
    exact ⟨ha.roots, ha.opened⟩

/-- A builder that is spaced, with no text beside which the next node comes. -/
def Ready (b : Builder) : Prop := b.Spaced ∧ startsText b.inner = false

theorem Spaced.add_ready (h : b.Spaced) {n : Node} (hn : startsText [n] = false) (hs : n.Spaced) :
    (b.add n).Ready := by
  have hsep : Separated [n] := by
    cases n with
    | text => cases hn
    | _ => trivial
  obtain ⟨ha, hi⟩ := h.add hsep hs (by simp [hn])
  have hstart : startsText (n :: b.inner) = startsText [n] := by cases n <;> rfl
  exact ⟨ha, by rw [hi, hstart, hn]⟩

theorem Ready.push (h : b.Ready) {n : Node} (hn : startsText [n] = false) (hs : n.Spaced) :
    (b.push n).Ready := (h.1.flush h.2).add_ready hn hs

theorem Ready.openElement (h : b.Ready) (name : String) (attrs : KeyedList String String) :
    (b.openElement name attrs).Ready := by
  have hf := h.1.flush h.2
  exact ⟨⟨hf.roots, List.forall_mem_cons.mpr ⟨⟨trivial, trivial⟩, hf.opened⟩⟩, rfl⟩

theorem Ready.close (h : b.Ready) {name : String} (hc : b.close name = .ok b') : b'.Ready := by
  have hf := h.1.flush h.2
  rw [Builder.close] at hc
  split at hc
  · cases hc
  · rename_i e es ho
    split at hc
    · cases hc
      obtain ⟨he, hes⟩ := List.forall_mem_cons.mp (ho ▸ hf.opened)
      have hrest : Spaced { b.flush with opened := es } := ⟨hf.roots, hes⟩
      exact hrest.add_ready rfl ⟨he.1.reverse, spacedAll_reverse.mpr he.2⟩
    · cases hc

/-- Every token leaves a builder that is ready. -/
theorem Ready.step (h : b.Ready) {mode : Mode} {t : Token} (hs : b.step mode t = .ok b') :
    b'.Ready := by
  cases t with
  | startTag name attrs =>
    have h' : Ready { b with allowance := b.allowance + 1 } := ⟨⟨h.1.roots, h.1.opened⟩, h.2⟩
    rw [Builder.step] at hs
    split at hs
    · cases hs
      exact h'.push rfl ⟨trivial, trivial⟩
    · cases hs
      exact h'.openElement _ _
  | endTag name =>
    rw [Builder.step, endTag] at hs
    split at hs
    · cases hs
    · rename_i allowance _
      have h' : Ready { b with allowance } := ⟨⟨h.1.roots, h.1.opened⟩, h.2⟩
      split at hs
      · cases hs
        exact h'
      · exact h'.close hs
  | text | reference | cdata =>
    cases hs
    exact ⟨⟨h.1.roots, h.1.opened⟩, h.2⟩
  | declaration =>
    cases hs
    exact h
  | emptyTag =>
    cases hs
    exact h.push rfl ⟨trivial, trivial⟩
  | comment | doctype | instruction =>
    cases hs
    exact h.push rfl trivial

theorem Ready.run (h : b.Ready) {mode : Mode} {ts : List Token} (hr : b.run mode ts = .ok b') :
    b'.Ready := by
  induction ts generalizing b with
  | nil =>
    cases hr
    exact h
  | cons t ts ih =>
    obtain ⟨c, hc, hr⟩ := Except.bind_eq_ok_iff.mp hr
    exact ih (h.step hc) hr

end Markup.Builder

namespace Markup

/-- **The texts of a forest are apart**, at all depths. -/
theorem spaced_of_parseChars {mode : Mode} {cs : List Char} {nodes : List Node}
    (h : parseChars mode cs = .ok nodes) : Separated nodes ∧ Node.SpacedAll nodes := by
  obtain ⟨b, hr, hf⟩ := exists_of_parseChars h
  obtain ⟨-, rfl⟩ := Builder.exists_of_finish hf
  have hempty : Builder.Ready .empty := ⟨⟨⟨trivial, trivial⟩, nofun⟩, rfl⟩
  have hb := hempty.run hr
  have hroots := (hb.1.flush hb.2).roots
  exact ⟨hroots.1.reverse, Node.spacedAll_reverse.mpr hroots.2⟩

end Markup

end MarkupTemplate
