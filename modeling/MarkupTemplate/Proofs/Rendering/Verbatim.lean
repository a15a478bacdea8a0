import MarkupTemplate.Proofs.Markup.Delivery
import MarkupTemplate.Proofs.Markup.Spacing
import MarkupTemplate.Proofs.Rendering.NodeFolding

/-!
# Nodes written as they stand

A template writes the texts and attribute values of its nodes as they stand, once their blanks are
in order. No character is replaced by a reference, so not every node is read back from what is
written of it: a text may hold an opening bracket, a value a double quote, and a name may mean
something where it stands. Of the nodes that reading delivers these are the only ones that are lost,
next to empty doctypes, instructions to the reader itself and void elements with content.

## Main definitions

* `MarkupTemplate.Dom.Node.collapsed` — a node with its blanks in order.
* `MarkupTemplate.Dom.Node.verbatim` — the markup of a node with texts and values as they stand.
* `MarkupTemplate.Dom.Node.Printable` — nodes that are read back from this markup.

## Main results

* `MarkupTemplate.Markup.yields_verbatim` — the markup of a printable node yields it.
* `MarkupTemplate.Markup.parse_verbatimAll` — what printable nodes are written as is read as these.
-/

namespace MarkupTemplate

open Dom Markup Text

/-! ### Blanks -/

/-- An attribute value with its blanks in order. An empty value stays empty. -/
def collapsedValue (value : String) : String :=
  if value = "" then "" else String.ofList (collapseEdges value.toList)

theorem mem_collapsedValue {value : String} {c : Char} (h : c ∈ (collapsedValue value).toList) :
    c = ' ' ∨ c ∈ value.toList := by
  rw [collapsedValue] at h
  split at h
  · cases h
  · rw [String.toList_ofList] at h
    exact mem_collapseEdges h

/-- Attributes with the blanks of their values in order. -/
def collapsedValues (attrs : KeyedList String String) : KeyedList String String :=
  attrs.map fun attr => (attr.1, collapsedValue attr.2)

namespace Dom.Node

mutual

/-- The node with the blanks of its texts and attribute values in order. -/
def collapsed : Node → Node
  | text s => text (String.ofList (collapse s.toList))
  | element name attrs cs =>
    element name (collapsedValues attrs) (collapsedAll cs)
  | comment s => comment s
  | doctype s => doctype s
  | instruction target data => instruction target data
  | fragment cs => fragment (collapsedAll cs)

/-- The nodes with their blanks in order. -/
def collapsedAll : List Node → List Node
  | [] => []
  | n :: ns => n.collapsed :: collapsedAll ns

end

mutual

/-- The markup of a node with texts and attribute values as they stand. -/
def verbatim : Node → String
  | text s => s
  | element name attrs cs => elementMarkup name attrs (verbatimAll cs)
  | n => n.outerHtml

/-- The markup of nodes with texts and attribute values as they stand. -/
def verbatimAll : List Node → String
  | [] => ""
  | n :: ns => n.verbatim ++ verbatimAll ns

end

/-! ### Printable nodes -/

/-- A tag whose names and values can be written as they stand. The name of the element stands in its
end tag too, and there without the attributes that may pair its quotes. -/
structure PrintableTag (name : String) (attrs : KeyedList String String) : Prop where
  head : name.toList.head? ∉ [some '!', some '?', some '/']
  last : attrs = [] → name.toList.getLast? ≠ some '/'
  unqualified : ':' ∉ name.toList
  values : ∀ attr ∈ attrs, '"' ∉ attr.2.toList
  sealedTag : Sealed (tagMarkup id name.toList (rawAttributes (collapsedValues attrs)))
  sealedName : Sealed name.toList

instance (name : String) (attrs : KeyedList String String) : Decidable (PrintableTag name attrs) :=
  decidable_of_iff
    (name.toList.head? ∉ [some '!', some '?', some '/'] ∧
      (attrs = [] → name.toList.getLast? ≠ some '/') ∧ ':' ∉ name.toList ∧
      (∀ attr ∈ attrs, '"' ∉ attr.2.toList) ∧
      Sealed (tagMarkup id name.toList (rawAttributes (collapsedValues attrs))) ∧
      Sealed name.toList)
    ⟨fun ⟨hh, hl, hu, hv, ht, hn⟩ => ⟨hh, hl, hu, hv, ht, hn⟩,
      fun h => ⟨h.head, h.last, h.unqualified, h.values, h.sealedTag, h.sealedName⟩⟩

mutual

/-- A node that is read back from its markup as it stands, if it was read before. -/
def Printable : Node → Prop
  | text s => '<' ∉ s.toList
  | element name attrs cs =>
    PrintableTag name attrs ∧ (isVoid name = true → cs = []) ∧ PrintableAll cs
  | comment _ => True
  | doctype s => s ≠ ""
  | instruction target _ => target ≠ "xml"
  | fragment cs => PrintableAll cs

/-- Nodes that are read back from their markup as it stands. -/
def PrintableAll : List Node → Prop
  | [] => True
  | n :: ns => n.Printable ∧ PrintableAll ns

end

mutual

/-- Decides whether a node is read back. -/
private def decPrintable : (n : Node) → Decidable n.Printable
  | text _ => inferInstanceAs (Decidable (_ ∉ _))
  | element _ _ cs =>
    have := decPrintableAll cs
    inferInstanceAs (Decidable (_ ∧ _))
  | comment _ => isTrue trivial
  | doctype _ => inferInstanceAs (Decidable (_ ≠ _))
  | instruction .. => inferInstanceAs (Decidable (_ ≠ _))
  | fragment cs => decPrintableAll cs

/-- Decides whether nodes are read back. -/
private def decPrintableAll : (ns : List Node) → Decidable (PrintableAll ns)
  | [] => isTrue trivial
  | n :: ns =>
    have := decPrintable n
    have := decPrintableAll ns
    inferInstanceAs (Decidable (_ ∧ _))

end

instance : DecidablePred Printable := decPrintable

instance : DecidablePred PrintableAll := decPrintableAll

/-- Blanks in order keep texts apart. -/
theorem separated_collapsedAll {ns : List Node} (h : Separated ns) :
    Separated (collapsedAll ns) := by
  have hstart (ns : List Node) : startsText (collapsedAll ns) = startsText ns := by
    rcases ns with _ | ⟨n, ns⟩
    · rfl
    · cases n <;> rfl
  induction ns with
  | nil => trivial
  | cons n ns ih =>
    cases n with
    | text s =>
      obtain ⟨hs, hn, hns⟩ := h
      refine ⟨fun he => hs ?_, (hstart ns).trans hn, ih hns⟩
      have hc := String.ofList_eq_empty_iff.mp he
      exact String.toList_eq_nil_iff.mp (Classical.byContradiction fun hne =>
        collapse_ne_nil hne hc)
    | _ => exact ih h

end Dom.Node

/-! ### Reading what is written -/

namespace Markup

open Dom.Node (PrintableTag PrintableAll Spaced SpacedAll labelsAll collapsedAll verbatimAll)

variable {cs : List Char}

/-- The tag of a printable element can be written and is read back. -/
theorem writable_of_printableTag (hamp : '&' ∉ cs) {name : String} {attrs : KeyedList String String}
    (h : PrintableTag name attrs) (hd : Delivered cs (.element name attrs [])) :
    Writable id name.toList (rawAttributes (collapsedValues attrs)) ∧
      Readable id (rawAttributes (collapsedValues attrs)) := by
  obtain ⟨hsolid, hattrs, hnodup⟩ := hd
  have hmem {raw : List Char × List Char} (hr : raw ∈ rawAttributes (collapsedValues attrs)) :
      ∃ attr ∈ attrs, (attr.1.toList, (collapsedValue attr.2).toList) = raw := by
    rw [rawAttributes, collapsedValues, List.map_map] at hr
    exact List.mem_map.mp hr
  have hkeys : (collapsedValues attrs).map Prod.fst = attrs.map Prod.fst := by
    simp [collapsedValues]
  have havoid {c : Char} (hc : c ≠ ' ') {value : String} (hv : c ∉ value.toList) :
      c ∉ (collapsedValue value).toList := fun hm =>
    (mem_collapsedValue hm).elim hc hv
  constructor
  · have hhead : ∀ c ∈ name.toList.head?, c ≠ '!' ∧ c ≠ '?' ∧ c ≠ '/' := fun c hc => by
      simpa [Option.mem_def.mp hc] using h.head
    exact ⟨hsolid, hhead, fun hn => h.last (by simpa [rawAttributes, collapsedValues] using hn),
      h.unqualified, h.sealedTag, h.sealedName⟩
  · refine ⟨fun raw hr => ?_, nodup_rawAttributes (by rwa [hkeys]), fun raw hr => ?_,
      fun raw hr => ?_⟩
    · obtain ⟨attr, ha, rfl⟩ := hmem hr
      exact (hattrs attr ha).1
    · obtain ⟨attr, ha, rfl⟩ := hmem hr
      exact havoid (by decide) (h.values attr ha)
    · obtain ⟨attr, ha, rfl⟩ := hmem hr
      exact unescape_self (havoid (by decide) fun hm => hamp ((hattrs attr ha).2.subset hm))

mutual

/-- A printable node is read back with its blanks in order. -/
theorem yields_verbatim (hamp : '&' ∉ cs) : (n : Node) → (∀ l ∈ n.labels, Delivered cs l) →
    n.Spaced → n.Printable → Yields n.collapsed.verbatim.toList [n.collapsed]
  | .text s, hd, _, hp => by
    have hw : Words (collapse s.toList) (collapse s.toList) := words_self fun c hc => by
      rcases mem_collapse hc with rfl | hm
      · rfl
      · have hcs : c ∈ cs := hd (.text s) List.mem_cons_self c hm
        simp [isText, ne_of_mem_of_not_mem hm hp, ne_of_mem_of_not_mem hcs hamp]
    rw [Node.collapsed, Node.verbatim, String.toList_ofList]
    exact hw.yields
  | .element name attrs children, hd, hs, hp => by
    obtain ⟨hlabel, hchildren⟩ := List.forall_mem_cons.mp hd
    obtain ⟨htag, hvoid, hp⟩ := hp
    obtain ⟨hn, hr⟩ := writable_of_printableTag hamp htag hlabel
    have hc := yields_verbatimAll hamp children hchildren hs.2 hp
    refine yields_elementMarkup hn hr hc (Node.separated_collapsedAll hs.1) fun hv => ?_
    rw [hvoid hv]
    exact ⟨rfl, rfl⟩
  | .comment s, hd, _, _ => (hd _ List.mem_cons_self).2
  | .doctype s, hd, _, hp => (hd _ List.mem_cons_self).2 hp
  | .instruction target data, hd, _, hp => (hd _ List.mem_cons_self).2.2 hp
  | .fragment _, hd, _, _ => (hd _ List.mem_cons_self).elim

/-- Printable nodes are read back with their blanks in order. -/
theorem yields_verbatimAll (hamp : '&' ∉ cs) : (ns : List Node) →
    (∀ l ∈ labelsAll ns, Delivered cs l) → SpacedAll ns → PrintableAll ns →
      Yields (verbatimAll (collapsedAll ns)).toList (collapsedAll ns)
  | [], _, _, _ => yields_nil
  | n :: ns, hd, hs, hp => by
    obtain ⟨hn, hns⟩ := List.forall_mem_append.mp hd
    rw [Node.collapsedAll, Node.verbatimAll, String.toList_append]
    exact (yields_verbatim hamp n hn hs.1 hp.1).append (yields_verbatimAll hamp ns hns hs.2 hp.2)

end

/-- The markup of nodes begins with a byte-order mark only if a text does so. -/
theorem head?_verbatimAll {nodes : List Node} (hd : ∀ l ∈ labelsAll nodes, Delivered cs l)
    (hs : Separated nodes)
    (hb : ∀ s, nodes.head? = some (.text s) → s.toList.head? ≠ some '\uFEFF') :
    (verbatimAll (collapsedAll nodes)).toList.head? ≠ some '\uFEFF' := by
  have hbracket {n : Node} {ns : List Node} (h : n.verbatim.toList.head? = some '<') :
      (verbatimAll (n :: ns)).toList.head? ≠ some '\uFEFF' := by
    rw [Node.verbatimAll, String.toList_append, List.head?_append, h]
    exact fun he => absurd (Option.some.inj he) (by decide)
  rcases nodes with _ | ⟨n, ns⟩
  · exact nofun
  rw [Node.collapsedAll]
  cases n with
  | text s =>
    have hne : s.toList ≠ [] := fun he => hs.1 (String.toList_eq_nil_iff.mp he)
    obtain ⟨c, ds, hcs⟩ := List.exists_cons_of_ne_nil hne
    have hc : c ≠ '\uFEFF' := fun he => hb s rfl (by rw [hcs, he]; rfl)
    rw [Node.verbatimAll, Node.collapsed, Node.verbatim, String.toList_append,
      String.toList_ofList, hcs, collapse, collapseFrom]
    split
    · exact fun he => absurd (Option.some.inj he) (by decide)
    · exact fun he => hc (Option.some.inj he)
  | element name attrs children =>
    obtain ⟨ds, he⟩ := exists_elementMarkup_eq_cons name (collapsedValues attrs)
      (verbatimAll (collapsedAll children))
    exact hbracket (by rw [Node.collapsed, Node.verbatim, he]; rfl)
  | comment s | doctype s =>
    refine hbracket ?_
    simp only [Node.collapsed, Node.verbatim, Node.outerHtml, Node.outer, Node.write,
      String.toList_append]
    rfl
  | instruction target data =>
    refine hbracket ?_
    simp only [Node.collapsed, Node.verbatim, Node.outerHtml, Node.outer, Node.write,
      writeInstruction, String.toList_append]
    rfl
  | fragment children => exact (hd _ List.mem_cons_self).elim

/-- **What is read is read back** from what it is written as, if it is printable, with its blanks
in order. A byte-order mark in front of the markup does not matter. -/
theorem parse_verbatimAll {mode : Mode} {nodes : List Node} (hamp : '&' ∉ cs)
    (h : parseChars mode cs = .ok nodes) (hp : PrintableAll nodes) {s : String}
    (hs : dropByteOrderMark s.toList = (verbatimAll (collapsedAll nodes)).toList) :
    parse .lenient s = .ok (collapsedAll nodes) := by
  obtain ⟨hsep, hspaced⟩ := spaced_of_parseChars h
  exact parseChars_of_yields hs
    (yields_verbatimAll hamp nodes (delivered_of_parseChars hamp h) hspaced hp)
    (Node.separated_collapsedAll hsep)

end Markup

end MarkupTemplate
