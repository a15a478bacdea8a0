import Mathlib.Data.List.Perm.Subperm
import MarkupTemplate.Proofs.Rendering.Exactness
import MarkupTemplate.Proofs.Template.NodeSlots

/-!
# Slots survive compilation

The references of a compiled template are the markers in the texts and the attribute values of its
markup, in document order: trees are made of nodes in their order, and folding takes only parts
without references away. So a slot whose marker stands whole in a piece of text or in an attribute
value is referred to once, and the references come in the order of the slots. A slot whose marker
stands in a comment, a doctype, an instruction, a declaration or a name is not referred to.

Other references can come up only where a marker is put together from two pieces of a text, which
a CDATA section or a declaration keeps apart in the markup but not in the document.

## Main definitions

* `MarkupTemplate.Fragments.contentSlots` — the slots that stand in content.

## Main results

* `MarkupTemplate.Tree.referencesAll_ofNodes`, `MarkupTemplate.Tree.references_fold`
* `MarkupTemplate.Fragments.references_compile` — which slots a compiled template refers to.
-/

namespace MarkupTemplate

open Dom Text

variable {ω ο : Type}

/-! ### Decoded texts -/

theorem references_ofText (value : String) :
    (AttrValue.ofText value).references = markers value.toList := by
  by_cases h : value = ""
  · subst h
    rfl
  · have hp : Part.reference? ∘ Segment.part = Segment.reference? := by
      funext segment
      cases segment <;> rfl
    rw [AttrValue.references, Template.pieces_ofText h, List.filterMap_map, hp,
      filterMap_decodeMarkers, markers_collapseEdges]

theorem references_ofTexts (attrs : KeyedList String String) :
    Attributes.references (.ofTexts attrs) = valueSlots attrs := by
  simp only [Attributes.references, Attributes.ofTexts, valueSlots, List.flatMap_map,
    references_ofText]

namespace Tree

theorem referencesAll_append (ts us : List (Tree ω ο)) :
    referencesAll (ts ++ us) = referencesAll ts ++ referencesAll us := by
  induction ts with
  | nil => rfl
  | cons t ts ih => rw [List.cons_append, referencesAll, referencesAll, ih, List.append_assoc]

theorem referencesAll_segments (segments : List Segment) :
    referencesAll (segments.map Segment.tree : List (Tree ω ο)) =
      segments.filterMap Segment.reference? := by
  induction segments with
  | nil => rfl
  | cons segment segments ih =>
    rw [List.map_cons, referencesAll, ih]
    cases segment <;> rfl

/-! ### Trees of nodes -/

theorem exists_of_ofElement {registry : Registry ω ο} {name : String}
    {attrs : KeyedList String String} {children : Except Error (List (Tree ω ο))} {t : Tree ω ο}
    (h : ofElement registry name attrs children = .ok t) :
    ∃ ts, children = .ok ts ∧ t.references = valueSlots attrs ++ referencesAll ts := by
  rw [ofElement] at h
  split at h
  · obtain ⟨c, _, h⟩ := Except.bind_eq_ok_iff.mp h
    obtain ⟨ts, hts, h⟩ := Except.bind_eq_ok_iff.mp h
    cases h
    exact ⟨ts, hts, by rw [references, references_ofTexts]⟩
  · obtain ⟨ts, hts, h⟩ := Except.bind_eq_ok_iff.mp h
    cases h
    exact ⟨ts, hts, by rw [references, references_ofTexts]⟩

mutual

/-- The trees of a node refer to what its texts and attribute values have markers for. -/
theorem referencesAll_ofNode (registry : Registry ω ο) : (n : Node) → {ts : List (Tree ω ο)} →
    ofNode registry n = .ok ts → referencesAll ts = n.slots
  | .text content, _, h => by
    cases h
    rw [ofText, referencesAll_segments, filterMap_decodeMarkers, markers_collapse, Node.slots]
  | .element name attrs children, _, h => by
    obtain ⟨t, ht, rfl⟩ := Except.map_eq_ok_iff.mp h
    obtain ⟨ts, hts, hr⟩ := exists_of_ofElement ht
    rw [referencesAll, referencesAll, List.append_nil, hr, Node.slots,
      referencesAll_ofNodes registry children hts]
  | .comment content, _, h => by cases h; rfl
  | .doctype content, _, h => by cases h; rfl
  | .instruction target data, _, h => by cases h; rfl
  | .fragment children, _, h => by cases h; rfl

theorem referencesAll_ofNodes (registry : Registry ω ο) : (ns : List Node) →
    {ts : List (Tree ω ο)} → ofNodes registry ns = .ok ts → referencesAll ts = Node.slotsAll ns
  | [], _, h => by
    cases h
    rfl
  | n :: ns, _, h => by
    rw [ofNodes] at h
    obtain ⟨ts, hts, h⟩ := Except.bind_eq_ok_iff.mp h
    obtain ⟨us, hus, h⟩ := Except.bind_eq_ok_iff.mp h
    cases h
    rw [referencesAll_append, referencesAll_ofNode registry n hts,
      referencesAll_ofNodes registry ns hus, Node.slotsAll]

end

theorem references_ofRoot {registry : Registry ω ο} {n : Node} {t : Tree ω ο}
    (h : ofRoot registry n = .ok t) : t.references = n.slots := by
  rw [ofRoot] at h
  obtain ⟨ts, hts, h⟩ := Except.bind_eq_ok_iff.mp h
  have hr := referencesAll_ofNode registry n hts
  split at h
  · cases h
    rw [← hr, referencesAll, referencesAll, List.append_nil]
  · obtain ⟨c, _, h⟩ := Except.bind_eq_ok_iff.mp h
    cases h
    exact hr

/-- A document is one tree with its references. A container that gives way to its only child has
to have no attributes. -/
theorem references_ofForest {registry : Registry ω ο} {nodes : List Node} {t : Tree ω ο}
    (h : ofForest registry nodes = .ok t)
    (hattrs : ∀ tag attrs children, nodes = [.element tag attrs children] → attrs = []) :
    t.references = Node.slotsAll nodes := by
  rw [ofForest.eq_def] at h
  split at h
  rename_i name attrs children hs
  obtain ⟨rfl, hslots⟩ : attrs = [] ∧ Node.slotsAll nodes = Node.slotsAll children := by
    split at hs
    · cases hs
      obtain rfl : attrs = [] := hattrs name attrs children rfl
      exact ⟨rfl, List.append_nil _⟩
    · cases hs
      exact ⟨rfl, rfl⟩
  rw [hslots]
  split at h
  · rw [references_ofRoot h, Node.slotsAll, Node.slotsAll, List.append_nil]
  · obtain ⟨ts, hts, hr⟩ := exists_of_ofElement h
    rw [hr, referencesAll_ofNodes registry _ hts]
    rfl

/-! ### Folding -/

theorem references_of_literals? : {attrs : Attributes} → {literals : List (String × String)} →
    attrs.literals? = some literals → Attributes.references attrs = []
  | [], _, _ => rfl
  | (name, .single (.text s)) :: attrs, _, h => by
    obtain ⟨_, ht, _⟩ := Option.map_eq_some_iff.mp h
    show Attributes.references attrs = []
    exact references_of_literals? ht

theorem referencesAll_of_content? {content : String} : {ts : List (Tree ω ο)} →
    content? ts = some content → referencesAll ts = []
  | [], _ => rfl
  | [.text _], _ => rfl

theorem references_foldElement (tag : String) (attrs : Attributes) (children : List (Tree ω ο)) :
    (foldElement tag attrs children).references =
      Attributes.references attrs ++ referencesAll children := by
  rw [foldElement]
  split
  · rename_i hc ha
    rw [references_of_literals? ha, referencesAll_of_content? hc]
    rfl
  · rfl

theorem referencesAll_consMerged (t : Tree ω ο) (ts : List (Tree ω ο)) :
    referencesAll (consMerged t ts) = t.references ++ referencesAll ts := by
  rw [consMerged.eq_def]
  split <;> rfl

mutual

/-- Folding keeps the references. -/
theorem references_fold : (t : Tree ω ο) → t.fold.references = t.references
  | text _ => rfl
  | reference _ => rfl
  | element tag attrs children => by
    rw [fold, references_foldElement, referencesAll_foldAll children, references]
  | component c attrs children => by
    rw [fold, references, referencesAll_foldAll children, references]

theorem referencesAll_foldAll : (ts : List (Tree ω ο)) →
    referencesAll (foldAll ts) = referencesAll ts
  | [] => rfl
  | t :: ts => by
    rw [foldAll, referencesAll_consMerged, references_fold t, referencesAll_foldAll ts,
      referencesAll]

end

/-! ### The text that is read -/

/-- What is read is the container and the trimmed markup, with escaped ampersands. -/
theorem toList_wrap (markup : String) :
    (wrap markup).toList = escapeAmpersands ('<' :: (containerTag.toList ++ '>' ::
      (trim markup.toList ++ ('<' :: '/' :: (containerTag.toList ++ ['>']))))) := by
  have hopen : escapeAmpersands ('<' :: (containerTag.toList ++ ['>'])) =
      '<' :: (containerTag.toList ++ ['>']) := escapeAmpersands_of_not_mem (by decide)
  have hclose : escapeAmpersands ('<' :: '/' :: (containerTag.toList ++ ['>'])) =
      '<' :: '/' :: (containerTag.toList ++ ['>']) := escapeAmpersands_of_not_mem (by decide)
  rw [List.append_cons, ← List.cons_append, escapeAmpersands_append, escapeAmpersands_append,
    hopen, hclose]
  simp [wrap, prepare]

/-- The container brings in no marker, and the preparation of the markup changes none. -/
theorem markers_wrap (markup : String) : markers (wrap markup).toList = markers markup.toList := by
  have hopen : '[' ∉ '<' :: (containerTag.toList ++ ['>']) := by decide
  have hclose : '[' ∉ '<' :: '/' :: (containerTag.toList ++ ['>']) := by decide
  have hs : ¬ Straddled (trim markup.toList) ('<' :: '/' :: (containerTag.toList ++ ['>'])) :=
    not_straddled_cons rfl _ _
  rw [toList_wrap, markers_escapeAmpersands, List.append_cons, ← List.cons_append,
    markers_append_of_not_mem hopen, markers_append hs, markers_of_not_mem hclose,
    List.append_nil, markers_trim]

theorem escaped_wrap (markup : String) : Escaped (wrap markup).toList :=
  ⟨_, (toList_wrap markup).symm⟩

/-- Behind the start tag of the container, the markup is read up to its end tag. -/
theorem tokens_wrap (markup : String) {ts : List Markup.Token} {stop? : Option Markup.Stop}
    (h : Markup.tokens ((prepare markup).toList ++
      '<' :: '/' :: (containerTag.toList ++ ['>'])) = (ts, stop?)) :
    Markup.tokens (wrap markup).toList = (.startTag containerTag.toList [] :: ts, stop?) := by
  rw [toList_wrap_between, Markup.tokens_of_readToken (Markup.readToken_startTag
    isTagName_containerTag.writable_nil Markup.readable_nil _), h]

theorem dropByteOrderMark_wrap (markup : String) :
    Markup.dropByteOrderMark (wrap markup).toList = (wrap markup).toList := by
  rw [toList_wrap_between]
  rfl

/-- The tree of a text refers to the markers in its runs of text and its attribute values. -/
theorem references_ofMarkup {registry : Registry ω ο} {markup : String} {t : Tree ω ο}
    (h : ofMarkup registry markup = .ok t) :
    t.references = Markup.Token.slotsFrom [] (Markup.tokens (wrap markup).toList).1 := by
  have hmark := dropByteOrderMark_wrap markup
  rw [ofMarkup] at h
  split at h
  · rename_i nodes hp
    have hts := congrArg Prod.fst (tokens_wrap markup rfl)
    rw [← hmark] at hts
    rw [references_ofForest h fun tag attrs children hn =>
      Markup.attrs_eq_of_parseChars hp hts hn, Markup.slotsAll_parseChars hp, hmark]
  · cases h

end Tree

/-! ### Fragments -/

namespace Fragments

variable {fragments : List String}

/-- The tokens that the markup of fragments is read as. -/
def tokens (fragments : List String) : List Markup.Token :=
  (Markup.tokens (Tree.wrap (join fragments)).toList).1

/-- The slots whose markers stand whole in a text, in a CDATA section or in an attribute value,
in the order of the markup. -/
def contentSlots (fragments : List String) : List Nat :=
  (tokens fragments).flatMap Markup.Token.slots

/-- **The references of a compiled template.** The slots that stand in content come in their own
order, each once, and all of them are referred to in this order. There are no other references, if
no marker is put together from pieces of a text. So a slot that stands elsewhere is not referred to,
and the slots are referred to from the first to the last exactly if all of them stand in content. -/
theorem references_compile (registry : Registry ω ο)
    (hf : ∀ s ∈ fragments, ¬ ['[', '[', '['] <:+: s.toList)
    (hk : slotCount fragments ≤ Numeral.word64) {tree : Tree ω ο}
    (hc : Tree.compile registry (join fragments) = .ok tree) :
    (contentSlots fragments).Sublist (List.range (slotCount fragments)) ∧
      (contentSlots fragments).Sublist tree.references ∧
      ((∀ t ∈ tokens fragments, t.isSeam = false) → Markup.Token.Seamless [] (tokens fragments)) ∧
      (Markup.Token.Seamless [] (tokens fragments) →
        tree.references = contentSlots fragments ∧
          (tree.references = List.range (slotCount fragments) ↔
            ∀ i < slotCount fragments, i ∈ contentSlots fragments)) := by
  obtain ⟨t, ht, rfl⟩ := Except.map_eq_ok_iff.mp hc
  have hrefs : t.fold.references = Markup.Token.slotsFrom [] (tokens fragments) :=
    (Tree.references_fold t).trans (Tree.references_ofMarkup ht)
  have hmarkers : markers (Tree.wrap (join fragments)).toList =
      List.range (slotCount fragments) := by
    rw [Tree.markers_wrap, join, String.toList_ofList,
      markers_joinFrom hf (by rwa [Nat.zero_add]), List.range_eq_range']
  have hsub : (contentSlots fragments).Sublist (List.range (slotCount fragments)) :=
    hmarkers ▸ Markup.slots_tokens_sublist (Tree.escaped_wrap _)
  refine ⟨hsub, ?_, fun ht => ?_, fun hs => ?_⟩
  · rw [hrefs]
    exact Markup.Token.slots_sublist_slotsFrom [] (tokens fragments)
  · exact Markup.seamless_tokens (Tree.escaped_wrap _) ht (Or.inl rfl)
  · have heq : t.fold.references = contentSlots fragments :=
      hrefs.trans (Markup.Token.slotsFrom_eq hs)
    refine ⟨heq, fun hrange i hi => ?_, fun hall => heq.trans (hsub.eq_of_length_le ?_)⟩
    · rw [← heq, hrange]
      exact List.mem_range.mpr hi
    · have hsubset : List.range (slotCount fragments) ⊆ contentSlots fragments := fun i hi =>
        hall i (List.mem_range.mp hi)
      exact (List.nodup_range.subperm hsubset).length_le

/-- What fragments compile to is known by the references of the tree, if they compile. -/
private theorem exists_compile (fragments : List String) (refs : List Nat)
    (h : (Tree.compile (.empty : Registry Unit String) (join fragments)).toOption.map
      Tree.references = some refs) :
    ∃ tree : Tree Unit String, Tree.compile .empty (join fragments) = .ok tree ∧
      tree.references = refs := by
  obtain ⟨tree, ht, rfl⟩ := Option.map_eq_some_iff.mp h
  refine ⟨tree, ?_, rfl⟩
  cases hc : Tree.compile (.empty : Registry Unit String) (join fragments) with
  | error error =>
    rw [hc] at ht
    cases ht
  | ok t =>
    rw [hc] at ht
    exact congrArg Except.ok (Option.some.inj ht)

/-- A paragraph with slots in an attribute value, in a text and in a CDATA section. -/
def slottedParagraph : List String :=
  ["<p title=\"", "\">a ", " b<![CDATA[ ", " ]]></p>"]

/-- The three slots stand in content, and no marker is put together from pieces. -/
theorem references_slottedParagraph :
    ∃ tree : Tree Unit String, Tree.compile .empty (join slottedParagraph) = .ok tree ∧
      contentSlots slottedParagraph = [0, 1, 2] ∧
        Markup.Token.Seamless [] (tokens slottedParagraph) ∧ tree.references = [0, 1, 2] := by
  have hts : tokens slottedParagraph =
      [.startTag "DocumentFragment".toList [],
        .startTag "p".toList [("title".toList, "[[[0]]]".toList)],
        .text "a [[[1]]] b".toList, .cdata " [[[2]]] ".toList, .endTag "p".toList,
        .endTag "DocumentFragment".toList] := by decide +kernel
  have hslots : contentSlots slottedParagraph = [0, 1, 2] := by
    rw [contentSlots, hts]
    decide +kernel
  have hs : Markup.Token.Seamless [] (tokens slottedParagraph) := by
    rw [hts]
    exact ⟨not_straddled_nil _, not_straddled_cons rfl _ _, trivial⟩
  obtain ⟨tree, hc, -⟩ := exists_compile slottedParagraph [0, 1, 2] (by decide +kernel)
  have h := references_compile .empty (by decide) (by decide) hc
  exact ⟨tree, hc, hslots, hs, ((h.2.2.2 hs).1).trans hslots⟩

/-- A marker that a text and a CDATA section make is compiled to its reference. -/
theorem compile_seam :
    Tree.compile (.empty : Registry Unit String) (join ["[[<![CDATA[[5]]]]]>"]) =
      .ok (.reference 5) := by
  have hp : Markup.parse .strict (Tree.wrap (join ["[[<![CDATA[[5]]]]]>"])) =
      .ok [.element "DocumentFragment" [] [.text "[[[5]]]"]] := by decide +kernel
  have hd : decodeMarkers (collapse "[[[5]]]".toList) = [.reference 5] := by decide +kernel
  rw [Tree.compile, Tree.ofMarkup, hp]
  simp only [Tree.ofForest, Tree.ofRoot, Tree.ofNode, Tree.ofText, hd]
  rfl

/-- **Markers outside of content are not read.** The one marker of a comment, a doctype, an
instruction, a declaration, a prefix of a name, a name and a name of an attribute is not referred
to. And a marker that two pieces of a text make is read, where no slot is. -/
theorem references_outside_content :
    (∀ fragments ∈ [["<!--", "-->"], ["<!DOCTYPE ", ">"], ["<?a ", "?>"],
        ["<p><?xml ", "?></p>"], ["<x", ":b/>"], ["<b", "/>"], ["<b ", "='1'/>"]],
      (∀ s ∈ fragments, ¬ ['[', '[', '['] <:+: s.toList) ∧
        List.range (slotCount fragments) = [0] ∧
          ∃ tree : Tree Unit String, Tree.compile .empty (join fragments) = .ok tree ∧
            tree.references = []) ∧
    (∀ s ∈ ["[[<![CDATA[[5]]]]]>"], ¬ ['[', '[', '['] <:+: s.toList) ∧
      List.range (slotCount ["[[<![CDATA[[5]]]]]>"]) = [] ∧
        ∃ tree : Tree Unit String, Tree.compile .empty (join ["[[<![CDATA[[5]]]]]>"]) = .ok tree ∧
          tree.references = [5] := by
  refine ⟨fun fragments hm => ⟨?_, ?_, exists_compile _ _ ?_⟩, by decide, rfl, _, compile_seam, rfl⟩
  · revert fragments
    decide
  · revert fragments
    decide
  · revert fragments
    decide +kernel

end Fragments

end MarkupTemplate
