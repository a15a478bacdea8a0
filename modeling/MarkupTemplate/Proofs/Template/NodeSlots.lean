import MarkupTemplate.Proofs.Template.TokenSlots

/-!
# Markers in nodes

Tokens are built into nodes without a change in the order of markers. At any point the markers in
what has been built, followed by those that the tokens to come bring in behind the pending text,
are the same: a token moves from the second list to the first.

The first thing to come into the document stays its first node. Its attributes are those of the
first tag.

## Main definitions

* `MarkupTemplate.Dom.Node.slots` — the markers in texts and attribute values, in document order.
* `MarkupTemplate.Markup.Builder.built` — the markers in what a builder holds complete or open.
* `MarkupTemplate.Markup.Builder.Begins` — the attributes of the first element.

## Main results

* `MarkupTemplate.Markup.Builder.built_step`, `MarkupTemplate.Markup.Builder.built_run`
* `MarkupTemplate.Markup.slotsAll_parseChars` — nodes have the markers of their tokens.
-/

namespace MarkupTemplate

open Dom Text

/-! ### Nodes -/

/-- The markers in attribute values. -/
def valueSlots (attrs : KeyedList String String) : List Nat :=
  attrs.flatMap fun attr => markers attr.2.toList

namespace Dom.Node

mutual

/-- The markers in the texts and the attribute values of a node, in document order. -/
def slots : Node → List Nat
  | .text content => markers content.toList
  | .element _ attrs children => valueSlots attrs ++ slotsAll children
  | _ => []

/-- The markers in a list of nodes. -/
def slotsAll : List Node → List Nat
  | [] => []
  | n :: ns => slots n ++ slotsAll ns

end

theorem slotsAll_append (ms ns : List Node) : slotsAll (ms ++ ns) = slotsAll ms ++ slotsAll ns := by
  induction ms with
  | nil => rfl
  | cons m ms ih => rw [List.cons_append, slotsAll, slotsAll, ih, List.append_assoc]

/-- Nodes are collected with the last first. -/
theorem slotsAll_reverse_cons (n : Node) (ns : List Node) :
    slotsAll (n :: ns).reverse = slotsAll ns.reverse ++ n.slots := by
  rw [List.reverse_cons, slotsAll_append, slotsAll, slotsAll, List.append_nil]

end Dom.Node

namespace Markup

namespace Builder

open Dom.Node (slotsAll slotsAll_reverse_cons)

open Token (attributeSlots slotsFrom)

/-- The markers in open elements, the outermost first. -/
def openSlots : List OpenElement → List Nat
  | [] => []
  | e :: es => openSlots es ++ (valueSlots e.attrs ++ slotsAll e.children.reverse)

/-- The markers in what has been built, in document order. -/
def built (b : Builder) : List Nat := slotsAll b.roots.reverse ++ openSlots b.opened

variable {b b' : Builder}

theorem built_add (b : Builder) (n : Node) : (b.add n).built = b.built ++ n.slots := by
  obtain ⟨roots, opened, pending, allowance⟩ := b
  cases opened with
  | nil =>
    show slotsAll (n :: roots).reverse ++ [] = slotsAll roots.reverse ++ [] ++ n.slots
    rw [slotsAll_reverse_cons, List.append_nil, List.append_nil]
  | cons e es =>
    show slotsAll roots.reverse ++ (openSlots es ++
        (valueSlots e.attrs ++ slotsAll (n :: e.children).reverse)) = _
    rw [slotsAll_reverse_cons]
    simp only [built, openSlots, List.append_assoc]

theorem built_flush (b : Builder) : b.flush.built = b.built ++ markers b.text := by
  rw [flush]
  split
  · rename_i h
    rw [h]
    exact (List.append_nil _).symm
  · show (b.add (.text (String.ofList b.text))).built = _
    rw [built_add, Node.slots, String.toList_ofList]

theorem text_flush (b : Builder) : b.flush.text = [] := by
  rw [text, pending_flush]
  rfl

theorem built_push (b : Builder) (n : Node) :
    (b.push n).built = b.built ++ (markers b.text ++ n.slots) := by
  rw [push, built_add, built_flush, List.append_assoc]

theorem text_push (b : Builder) (n : Node) : (b.push n).text = [] := by
  rw [text, pending_push]
  rfl

theorem valueSlots_attributes (attrs : List (List Char × List Char)) :
    valueSlots (attributes attrs) = attributeSlots attrs := by
  simp only [valueSlots, attributes, attributeSlots, List.flatMap_map, String.toList_ofList]

theorem built_openElement (b : Builder) (name : String) (attrs : List (List Char × List Char)) :
    (b.openElement name (attributes attrs)).built =
      b.built ++ (markers b.text ++ attributeSlots attrs) := by
  have h := b.built_flush
  rw [built] at h
  rw [← valueSlots_attributes, ← List.append_assoc, ← h]
  simp [built, openElement, openSlots, slotsAll]

theorem text_openElement (b : Builder) (name : String) (attrs : KeyedList String String) :
    (b.openElement name attrs).text = [] := b.text_flush

/-- A closed element has the markers that it had open. -/
theorem built_close {name : String} (h : b.close name = .ok b') :
    b'.built = b.built ++ markers b.text ∧ b'.text = [] := by
  have hf := b.built_flush
  have ht := b.text_flush
  rw [close] at h
  split at h
  · cases h
  · rename_i e es ho
    split at h
    · cases h
      rw [built, ho] at hf
      refine ⟨?_, ?_⟩
      · rw [built_add, ← hf]
        simp [built, OpenElement.node, Node.slots, openSlots]
      · rw [text, pending_add]
        exact ht
    · cases h

private theorem built_step_of_some {t : Token} {content : List Char}
    (ht : t.text? = some content) (h : b.step .strict t = .ok b') :
    b'.built = b.built ∧ b'.text = b.text ++ content := by
  cases t with
  | text | reference | cdata =>
    cases ht
    cases h
    exact ⟨rfl, text_addText _ b⟩
  | declaration =>
    cases ht
    cases h
    exact ⟨rfl, (List.append_nil _).symm⟩
  | startTag | emptyTag | endTag | comment | doctype | instruction => cases ht

private theorem built_step_of_none {t : Token} (ht : t.text? = none)
    (h : b.step .strict t = .ok b') :
    b'.built = b.built ++ (markers b.text ++ attributeSlots t.attributes) ∧ b'.text = [] := by
  cases t with
  | text | reference | cdata | declaration => cases ht
  | startTag name attrs =>
    cases h
    exact ⟨built_openElement { b with allowance := b.allowance + 1 } (localName name) attrs,
      text_openElement _ _ _⟩
  | emptyTag name attrs =>
    cases h
    refine ⟨?_, text_push _ _⟩
    rw [built_push, Node.slots, valueSlots_attributes, slotsAll, List.append_nil]
    rfl
  | endTag name =>
    rw [step, endTag] at h
    split at h
    · cases h
    · rename_i allowance _
      obtain ⟨hb, ht⟩ := built_close h
      refine ⟨hb.trans ?_, ht⟩
      exact congrArg (b.built ++ ·) (List.append_nil _).symm
  | comment | doctype | instruction =>
    cases h
    exact ⟨built_push b _, text_push b _⟩

/-- One token moves its markers from what is to come to what has been built. -/
theorem built_step {t : Token} (h : b.step .strict t = .ok b') (ts : List Token) :
    b'.built ++ slotsFrom b'.text ts = b.built ++ slotsFrom b.text (t :: ts) := by
  rw [slotsFrom]
  cases ht : t.text? with
  | some content =>
    obtain ⟨hb, htext⟩ := built_step_of_some ht h
    rw [hb, htext]
  | none =>
    obtain ⟨hb, htext⟩ := built_step_of_none ht h
    rw [hb, htext]
    simp only [List.append_assoc]

/-- When all tokens have come, all their markers have been built. -/
theorem built_run {ts : List Token} (h : b.run .strict ts = .ok b') :
    b'.flush.built = b.built ++ slotsFrom b.text ts := by
  induction ts generalizing b with
  | nil =>
    cases h
    exact b'.built_flush
  | cons t ts ih =>
    obtain ⟨c, hc, h⟩ := Except.bind_eq_ok_iff.mp h
    rw [ih h, built_step hc]

/-! ### The first element -/

/-- The attributes of the elements that stand in a row at the top of the document, open ones
below their parents included. What is no element has none. The last is listed first. -/
def entries (b : Builder) : List (Option (KeyedList String String)) :=
  b.opened.map (fun e => some e.attrs) ++ b.roots.map Node.attrs?

/-- The first thing to come into the document is an element with these attributes. -/
def Begins (attrs : KeyedList String String) (b : Builder) : Prop :=
  b.entries.getLast? = some (some attrs)

variable {attrs : KeyedList String String}

private theorem Begins.of_cons {entry : Option (KeyedList String String)}
    (h : b.Begins attrs) (he : b'.entries = entry :: b.entries) : b'.Begins attrs := by
  rw [Begins] at h
  rw [Begins, he, List.getLast?_cons, h]
  rfl

theorem Begins.add (h : b.Begins attrs) (n : Node) : (b.add n).Begins attrs := by
  obtain ⟨roots, opened, pending, allowance⟩ := b
  cases opened with
  | nil => exact h.of_cons rfl
  | cons e es => exact h

theorem Begins.flush (h : b.Begins attrs) : b.flush.Begins attrs := by
  rw [Builder.flush]
  split
  · exact h
  · exact h.add _

theorem Begins.close (h : b.Begins attrs) {name : String} (hc : b.close name = .ok b') :
    b'.Begins attrs := by
  have hf := h.flush
  rw [Builder.close] at hc
  split at hc
  · cases hc
  · rename_i e es ho
    split at hc
    · cases hc
      generalize b.flush = c at hf ho
      obtain ⟨roots, opened, pending, allowance⟩ := c
      cases ho
      cases es with
      | nil => exact hf
      | cons d es => exact (List.getLast?_cons_cons).symm.trans hf
    · cases hc

theorem Begins.step {t : Token} (h : b.Begins attrs) (hs : b.step .strict t = .ok b') :
    b'.Begins attrs := by
  cases t with
  | startTag name as =>
    cases hs
    have ha : Begins attrs { b with allowance := b.allowance + 1 } := h
    exact ha.flush.of_cons rfl
  | endTag name =>
    rw [Builder.step, endTag] at hs
    split at hs
    · cases hs
    · rename_i allowance _
      have ha : Begins attrs { b with allowance } := h
      exact ha.close hs
  | text | reference | cdata | declaration =>
    cases hs
    exact h
  | emptyTag | comment | doctype | instruction =>
    cases hs
    exact h.flush.add _

theorem Begins.run {ts : List Token} (h : b.Begins attrs) (hr : b.run .strict ts = .ok b') :
    b'.Begins attrs := by
  induction ts generalizing b with
  | nil =>
    cases hr
    exact h
  | cons t ts ih =>
    obtain ⟨c, hc, hr⟩ := Except.bind_eq_ok_iff.mp hr
    exact ih (h.step hc) hr

end Builder

/-! ### Documents -/

/-- The nodes of a text have the markers of its runs of text and attribute values, in their
order. -/
theorem slotsAll_parseChars {cs : List Char} {nodes : List Node}
    (h : parseChars .strict cs = .ok nodes) :
    Node.slotsAll nodes = Token.slotsFrom [] (tokens (dropByteOrderMark cs)).1 := by
  obtain ⟨b, hr, hf⟩ := exists_of_parseChars h
  obtain ⟨ho, rfl⟩ := Builder.exists_of_finish hf
  have hb := Builder.built_run hr
  rw [Builder.built, ho] at hb
  exact (List.append_nil _).symm.trans hb

/-- If a text begins with a start tag, a document of one element has its attributes. -/
theorem attrs_eq_of_parseChars {cs : List Char} {nodes : List Node}
    (h : parseChars .strict cs = .ok nodes) {name : List Char}
    {as : List (List Char × List Char)} {ts : List Token}
    (ht : (tokens (dropByteOrderMark cs)).1 = .startTag name as :: ts) {tag : String}
    {attrs : KeyedList String String} {children : List Node}
    (hn : nodes = [.element tag attrs children]) : attrs = Builder.attributes as := by
  obtain ⟨b, hr, hf⟩ := exists_of_parseChars h
  obtain ⟨ho, hroots⟩ := Builder.exists_of_finish hf
  rw [ht] at hr
  obtain ⟨c, hc, hr⟩ := Except.bind_eq_ok_iff.mp hr
  cases hc
  have hopen : Builder.Begins (Builder.attributes as)
      ({ Builder.empty with allowance := 1 }.openElement (localName name)
        (Builder.attributes as)) := rfl
  have hfirst := (hopen.run hr).flush
  have hlast : b.flush.roots = [.element tag attrs children] :=
    List.reverse_eq_iff.mp (hroots.symm.trans hn)
  rw [Builder.Begins, Builder.entries, ho, hlast] at hfirst
  cases hfirst
  rfl

end Markup

end MarkupTemplate
