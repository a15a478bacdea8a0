import MarkupTemplate.Proofs.Markup.Locality

/-!
# Where nodes come from

Every node of a forest that is read comes from a token, but for the texts, which are put together
from the characters that tokens bring in. So what holds for everything that tokens make holds for
every node. The label of a node is the node without its children.

## Main definitions

* `MarkupTemplate.Dom.Node.labels` — the labels of a node and of all nodes below it.
* `MarkupTemplate.Markup.Token.Makes` — a token that makes labels of a kind only.

## Main results

* `MarkupTemplate.Markup.labels_parseChars` — the labels of a forest are of the kind that the tokens
  make.
* `MarkupTemplate.Markup.exists_of_mem_tokens` — a token is read from a part of the text.
-/

namespace MarkupTemplate

open Dom Text

namespace Dom.Node

mutual

/-- The labels of a node and of the nodes below it, in document order. -/
def labels : Node → List Node
  | .element name attrs children => .element name attrs [] :: labelsAll children
  | .fragment children => .fragment [] :: labelsAll children
  | n => [n]

/-- The labels of a list of nodes. -/
def labelsAll : List Node → List Node
  | [] => []
  | n :: ns => labels n ++ labelsAll ns

end

theorem mem_labelsAll {l : Node} {ns : List Node} : l ∈ labelsAll ns ↔ ∃ n ∈ ns, l ∈ n.labels := by
  induction ns with
  | nil => exact iff_of_false (by nofun) (by simp)
  | cons n ns ih => simp [labelsAll, ih]

theorem mem_labelsAll_reverse {l : Node} {ns : List Node} :
    l ∈ labelsAll ns.reverse ↔ l ∈ labelsAll ns := by
  simp [mem_labelsAll]

end Dom.Node

namespace Markup

open Dom.Node (labelsAll mem_labelsAll mem_labelsAll_reverse)

/-- A token that makes labels of the kind `P`, and text of the characters `q`. -/
def Token.Makes (P : Node → Prop) (q : Char → Prop) : Token → Prop
  | startTag name attrs => P (.element (localName name) (Builder.attributes attrs) [])
  | emptyTag name attrs => P (.element (localName name) (Builder.attributes attrs) [])
  | endTag _ => True
  | text content => ∀ c ∈ content, q c
  | reference body => ∀ c ∈ resolveInText body, q c
  | cdata content => ∀ c ∈ content, q c
  | comment content => P (.comment (String.ofList content))
  | doctype content => P (.doctype (String.ofList (trim content)))
  | instruction content => P (Builder.instruction content)
  | declaration _ => True

namespace Builder

/-- The labels of an open element. -/
def openLabels (e : OpenElement) : List Node :=
  .element e.name e.attrs [] :: labelsAll e.children

/-- A builder that holds labels of the kind `P`, and text of the characters `q`. -/
structure Holds (P : Node → Prop) (q : Char → Prop) (b : Builder) : Prop where
  roots : ∀ l ∈ labelsAll b.roots, P l
  opened : ∀ e ∈ b.opened, ∀ l ∈ openLabels e, P l
  pending : ∀ c ∈ b.pending, q c

variable {P : Node → Prop} {q : Char → Prop} {b b' : Builder}

theorem Holds.add (h : b.Holds P q) {n : Node} (hn : ∀ l ∈ n.labels, P l) :
    (b.add n).Holds P q := by
  obtain ⟨roots, opened, pending, allowance⟩ := b
  cases opened with
  | nil => exact ⟨List.forall_mem_append.mpr ⟨hn, h.roots⟩, h.opened, h.pending⟩
  | cons e es =>
    obtain ⟨he, hes⟩ := List.forall_mem_cons.mp h.opened
    obtain ⟨hlabel, hchildren⟩ := List.forall_mem_cons.mp he
    exact ⟨h.roots, List.forall_mem_cons.mpr ⟨List.forall_mem_cons.mpr
      ⟨hlabel, List.forall_mem_append.mpr ⟨hn, hchildren⟩⟩, hes⟩, h.pending⟩

section

variable (hq : ∀ s : List Char, (∀ c ∈ s, q c) → P (.text (String.ofList s)))
include hq

theorem Holds.flush (h : b.Holds P q) : b.flush.Holds P q := by
  rw [Builder.flush]
  split
  · exact h
  · have ht : P (.text (String.ofList b.text)) :=
      hq _ fun c hc => h.pending c (List.mem_reverse.mp hc)
    have ha := h.add (n := .text (String.ofList b.text)) (List.forall_mem_singleton.mpr ht)
    exact ⟨ha.roots, ha.opened, fun _ hc => absurd hc List.not_mem_nil⟩

theorem Holds.push (h : b.Holds P q) {n : Node} (hn : n.labels = [n]) (hp : P n) :
    (b.push n).Holds P q :=
  (h.flush hq).add (by rw [hn]; exact List.forall_mem_singleton.mpr hp)

theorem Holds.openElement (h : b.Holds P q) {name : String} {attrs : KeyedList String String}
    (hp : P (.element name attrs [])) : (b.openElement name attrs).Holds P q := by
  have hf := h.flush hq
  exact ⟨hf.roots, List.forall_mem_cons.mpr ⟨List.forall_mem_singleton.mpr hp, hf.opened⟩,
    hf.pending⟩

theorem Holds.close (h : b.Holds P q) {name : String} (hc : b.close name = .ok b') :
    b'.Holds P q := by
  have hf := h.flush hq
  rw [Builder.close] at hc
  split at hc
  · cases hc
  · rename_i e es ho
    split at hc
    · cases hc
      obtain ⟨he, hes⟩ := List.forall_mem_cons.mp (ho ▸ hf.opened)
      have hnode : ∀ l ∈ e.node.labels, P l := fun l hl => he l (by
        rw [OpenElement.node, Node.labels, List.mem_cons, mem_labelsAll_reverse] at hl
        exact List.mem_cons.mpr hl)
      have hrest : Holds P q { b.flush with opened := es } := ⟨hf.roots, hes, hf.pending⟩
      exact hrest.add hnode
    · cases hc

theorem Holds.step (h : b.Holds P q) {mode : Mode} {t : Token} (ht : t.Makes P q)
    (hs : b.step mode t = .ok b') : b'.Holds P q := by
  have htext {cs : List Char} (hcs : ∀ c ∈ cs, q c) : (b.addText cs).Holds P q :=
    ⟨h.roots, h.opened, List.forall_mem_append.mpr ⟨fun c hc => hcs c (List.mem_reverse.mp hc),
      h.pending⟩⟩
  cases t with
  | startTag name attrs =>
    have h' : Holds P q { b with allowance := b.allowance + 1 } := ⟨h.roots, h.opened, h.pending⟩
    rw [Builder.step] at hs
    split at hs
    · cases hs
      exact h'.push hq rfl ht
    · cases hs
      exact h'.openElement hq ht
  | endTag name =>
    rw [Builder.step, endTag] at hs
    split at hs
    · cases hs
    · rename_i allowance _
      have h' : Holds P q { b with allowance } := ⟨h.roots, h.opened, h.pending⟩
      split at hs
      · cases hs
        exact h'
      · exact h'.close hq hs
  | text | reference | cdata =>
    cases hs
    exact htext ht
  | declaration =>
    cases hs
    exact h
  | emptyTag | comment | doctype | instruction =>
    cases hs
    exact h.push hq rfl ht

theorem Holds.run (h : b.Holds P q) {mode : Mode} {ts : List Token} (ht : ∀ t ∈ ts, t.Makes P q)
    (hr : b.run mode ts = .ok b') : b'.Holds P q := by
  induction ts generalizing b with
  | nil =>
    cases hr
    exact h
  | cons t ts ih =>
    obtain ⟨c, hc, hr⟩ := Except.bind_eq_ok_iff.mp hr
    obtain ⟨ht, hts⟩ := List.forall_mem_cons.mp ht
    exact ih (h.step hq ht hc) hts hr

end

end Builder

/-- The labels of a forest are of the kind that its tokens make. -/
theorem labels_parseChars {P : Node → Prop} {q : Char → Prop}
    (hq : ∀ s : List Char, (∀ c ∈ s, q c) → P (.text (String.ofList s))) {mode : Mode}
    {cs : List Char} (ht : ∀ t ∈ (tokens (dropByteOrderMark cs)).1, t.Makes P q)
    {nodes : List Node} (h : parseChars mode cs = .ok nodes) : ∀ l ∈ labelsAll nodes, P l := by
  obtain ⟨b, hr, hf⟩ := exists_of_parseChars h
  obtain ⟨-, rfl⟩ := Builder.exists_of_finish hf
  have hempty : Builder.Holds P q .empty := ⟨nofun, nofun, nofun⟩
  intro l hl
  exact ((hempty.run hq ht hr).flush hq).roots l (mem_labelsAll_reverse.mp hl)

/-- A token is read from a part of the text. -/
theorem exists_of_mem_tokens {cs : List Char} {t : Token} (h : t ∈ (tokens cs).1) :
    ∃ c ds rest, c :: ds <:+ cs ∧ readToken c ds = .ok (t, rest) := by
  fun_induction tokens cs with
  | case1 => cases h
  | case2 => cases h
  | case3 c cs t' rest hr ts stop? hts ih =>
    rcases List.mem_cons.mp h with rfl | h
    · exact ⟨c, cs, rest, List.suffix_refl _, hr⟩
    · rw [hts] at ih
      obtain ⟨d, ds, rest', hs, hr'⟩ := ih h
      exact ⟨d, ds, rest', hs.trans ((suffix_of_readToken hr).trans (List.suffix_cons c cs)), hr'⟩

end Markup

end MarkupTemplate
