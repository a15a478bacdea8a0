import Mathlib.Data.List.Basic
import MarkupTemplate.Proofs.Rendering.Exactness
import MarkupTemplate.Proofs.Rendering.Verbatim
import MarkupTemplate.Proofs.Template.Acceptance

/-!
# Static markup

Markup without references, markers and calls is compiled to a tree that is rendered to the same
markup whatever the values are: the nodes that reading delivers, written as they stand. The lenient
reader reads them back from it, with their blanks in order, if they are printable. A byte-order mark
at the front of the markup is kept as text and dropped when the output is read.

Reading takes every notation of a text or a value, and writing has one notation only. So a value in
single quotes or a section of character data can hold what writing would have to escape, and static
markup is not faithful in general.

## Main definitions

* `MarkupTemplate.StaticMarkup` — markup without references, markers and calls.
* `MarkupTemplate.Dom.Node.Inert` — labels that are rendered as they stand.

## Main results

* `MarkupTemplate.Tree.exists_render_static` — what static markup is rendered to.
* `MarkupTemplate.Tree.parse_render_static` — reading the output of static markup.
* `MarkupTemplate.Tree.render_static_unprintable` — what is not read back.
-/

namespace MarkupTemplate

open Dom Text

variable {ω ο : Type} {values : List Value}

/-! ### Static markup -/

/-- Markup without references and without the beginning of a marker, in which no tag is that of a
component. -/
structure StaticMarkup (markup : String) : Prop where
  noAmpersand : '&' ∉ markup.toList
  noMarker : ¬ ['[', '[', '['] <:+: markup.toList
  noCall : ∀ t ∈ (Markup.tokens (Markup.dropByteOrderMark (trim markup.toList))).1,
    ∀ name ∈ t.tagName?, isComponentName (Markup.localName name) = false

instance (markup : String) : Decidable (StaticMarkup markup) :=
  decidable_of_iff
    ('&' ∉ markup.toList ∧ ¬ ['[', '[', '['] <:+: markup.toList ∧
      ∀ t ∈ (Markup.tokens (Markup.dropByteOrderMark (trim markup.toList))).1,
        ∀ name ∈ t.tagName?, isComponentName (Markup.localName name) = false)
    ⟨fun ⟨ha, hm, hc⟩ => ⟨ha, hm, hc⟩, fun h => ⟨h.noAmpersand, h.noMarker, h.noCall⟩⟩

namespace StaticMarkup

variable {markup : String} (h : StaticMarkup markup)

include h

theorem ampersand_not_mem_trim : '&' ∉ trim markup.toList := fun hm =>
  h.noAmpersand ((isInfix_trim markup.toList).subset hm)

/-- Without ampersands, preparing the markup only trims it. -/
theorem prepare_eq : Tree.prepare markup = String.ofList (trim markup.toList) := by
  rw [Tree.prepare, escapeAmpersands_of_not_mem h.ampersand_not_mem_trim]

theorem sparesContainer : Tree.SparesContainer markup := by
  rw [Tree.SparesContainer, h.prepare_eq, String.toList_ofList]
  intro t ht name hn he
  have hcall := h.noCall t ht name hn
  rw [he] at hcall
  exact absurd hcall (by decide)

end StaticMarkup

/-! ### Literal values -/

theorem ofText_of_markers_eq_nil {value : String} (h : markers value.toList = []) :
    AttrValue.ofText value = .single (.text (collapsedValue value)) := by
  rw [AttrValue.ofText, collapsedValue]
  split
  · rfl
  · rw [decodeMarkers_of_markers_eq_nil (by rwa [markers_collapseEdges]) (collapseEdges_ne_nil _)]
    rfl

theorem literals?_ofTexts {attrs : KeyedList String String}
    (h : ∀ attr ∈ attrs, markers attr.2.toList = []) :
    (Attributes.ofTexts attrs).literals? = some (collapsedValues attrs) := by
  induction attrs with
  | nil => rfl
  | cons attr attrs ih =>
    obtain ⟨hv, hrest⟩ := List.forall_mem_cons.mp h
    have hcons : Attributes.ofTexts (attr :: attrs) =
        (attr.1, .single (.text (collapsedValue attr.2))) :: Attributes.ofTexts attrs := by
      rw [← ofText_of_markers_eq_nil hv]
      rfl
    rw [hcons, Attributes.literals?, ih hrest]
    rfl

/-! ### Trees of static nodes -/

/-- A label of a node that is rendered as it stands. -/
def Dom.Node.Inert : Node → Prop
  | text s => markers s.toList = []
  | element name attrs _ =>
    isComponentName name = false ∧ ∀ attr ∈ attrs, markers attr.2.toList = []
  | fragment _ => False
  | n => '&' ∉ n.outerHtml.toList

namespace Tree

open Dom.Node (Inert labelsAll Printable PrintableAll collapsedAll verbatimAll)

theorem SettledAll.singleton {t : Tree ω String} {a : String} (h : Settled values t a) :
    SettledAll values [t] a := by
  have hs := SettledAll.cons h .nil
  rwa [String.append_empty] at hs

/-- A text without markers is one literal, or none. -/
theorem settledAll_ofText {s : String} (h : markers s.toList = []) :
    SettledAll values (ofText s : List (Tree ω String)) (String.ofList (collapse s.toList)) := by
  by_cases hs : s.toList = []
  · rw [ofText, hs, show collapse [] = [] from rfl, decodeMarkers_nil]
    exact .nil
  · rw [ofText, decodeMarkers_of_markers_eq_nil (by rwa [markers_collapse]) (collapse_ne_nil hs)]
    exact .singleton (settled_text _)

theorem ofLiteral_of_not_mem {n : Node} (h : '&' ∉ n.outerHtml.toList) :
    (ofLiteral n : Tree ω ο) = .text n.outerHtml := by
  have hr := restoreAmpersands_append_of_not_mem h []
  rw [List.append_nil, restoreAmpersands, List.append_nil] at hr
  rw [ofLiteral, hr, String.ofList_toList]

/-- An inert node that is no text or element is rendered as its markup. -/
theorem exists_settled_literal {registry : Registry ω String} {n : Node}
    (h : '&' ∉ n.outerHtml.toList) (hn : ofNode registry n = .ok [ofLiteral n]) :
    ∃ ts, ofNode registry n = .ok ts ∧ SettledAll values ts n.outerHtml :=
  ⟨_, hn, by rw [ofLiteral_of_not_mem h]; exact .singleton (settled_text _)⟩

mutual

/-- An inert node is rendered as it stands. -/
theorem exists_settled_ofNode (values : List Value) (registry : Registry ω String) :
    (n : Node) → (∀ l ∈ n.labels, l.Inert) →
      ∃ ts, ofNode registry n = .ok ts ∧ SettledAll values ts n.collapsed.verbatim
  | .text _, h => ⟨_, rfl, settledAll_ofText (h _ List.mem_cons_self)⟩
  | .element name attrs children, h => by
    obtain ⟨⟨hname, hattrs⟩, hchildren⟩ := List.forall_mem_cons.mp h
    obtain ⟨ts, hts, hs⟩ := exists_settled_ofNodes values registry children hchildren
    have htexts : resolveAttributes values (.ofTexts attrs) = .ok (collapsedValues attrs) :=
      resolveAttributes_of_literals? (literals?_ofTexts hattrs)
    refine ⟨[.element name (.ofTexts attrs) ts], ?_, .singleton (settled_element name htexts hs)⟩
    rw [ofNode, ofElement, hname, hts]
    rfl
  | .comment _, h => exists_settled_literal (h _ List.mem_cons_self) rfl
  | .doctype _, h => exists_settled_literal (h _ List.mem_cons_self) rfl
  | .instruction .., h => exists_settled_literal (h _ List.mem_cons_self) rfl
  | .fragment _, h => (h _ List.mem_cons_self).elim

/-- Inert nodes are rendered as they stand. -/
theorem exists_settled_ofNodes (values : List Value) (registry : Registry ω String) :
    (ns : List Node) → (∀ l ∈ labelsAll ns, l.Inert) →
      ∃ ts, ofNodes registry ns = .ok ts ∧ SettledAll values ts (verbatimAll (collapsedAll ns))
  | [], _ => ⟨[], rfl, .nil⟩
  | n :: ns, h => by
    obtain ⟨hn, hns⟩ := List.forall_mem_append.mp h
    obtain ⟨ts, hts, hs⟩ := exists_settled_ofNode values registry n hn
    obtain ⟨us, hus, hs'⟩ := exists_settled_ofNodes values registry ns hns
    refine ⟨ts ++ us, ?_, hs.append hs'⟩
    rw [ofNodes, hts, hus]
    rfl

end

/-! ### Rendering static markup -/

variable {markup : String} {nodes : List Node}

/-- The nodes that static markup is read as are inert, if no marker is put together in a text from
parts of the markup. -/
theorem inert_of_parse (h : StaticMarkup markup)
    (hp : Markup.parseChars .strict (trim markup.toList) = .ok nodes)
    (hm : ∀ l ∈ labelsAll nodes, ∀ s ∈ l.text?, markers s.toList = []) :
    ∀ l ∈ labelsAll nodes, l.Inert := by
  intro l hl
  have hd := Markup.delivered_of_parseChars h.ampersand_not_mem_trim hp l hl
  have hn := Markup.names_parseChars (q := (isComponentName · = false)) h.noCall hp l hl
  have hamp {s : String} (hi : s.toList <:+: trim markup.toList) : '&' ∉ s.toList := fun hs =>
    h.ampersand_not_mem_trim (hi.subset hs)
  cases l with
  | text s => exact hm _ hl s rfl
  | element name attrs children =>
    refine ⟨hn.2 name rfl, fun attr ha => markers_of_not_infix fun hi => h.noMarker ?_⟩
    exact (hi.trans (hd.2.1 attr ha).2).trans (isInfix_trim _)
  | comment s => simp [Inert, Node.outerHtml, Node.outer, Node.write, hamp hd.1]
  | doctype s => simp [Inert, Node.outerHtml, Node.outer, Node.write, hamp hd.1]
  | instruction target data =>
    simp only [Inert, Node.outerHtml, Node.outer, Node.write, writeInstruction]
    split <;> simp [hamp hd.1, hamp hd.2.1]
  | fragment => exact hd.elim

/-- **Static markup is rendered to its nodes as they stand**, whatever the values are. -/
theorem exists_render_static {registry : Registry ω String}
    (hr : registry.get? containerTag = none) (h : StaticMarkup markup)
    (hp : Markup.parse .strict (String.ofList (trim markup.toList)) = .ok nodes)
    (hm : ∀ l ∈ labelsAll nodes, ∀ s ∈ l.text?, markers s.toList = []) (values : List Value) :
    ∃ t, compile registry markup = .ok t ∧ t.render .text values =
      .succeed (.ready (verbatimAll (collapsedAll (restoreMark markup nodes)))) := by
  have hmirror := mirrors_parse_wrap h.sparesContainer
  rw [h.prepare_eq, hp] at hmirror
  have hw : Markup.parse .strict (wrap markup) =
    .ok [.element containerTag [] (restoreMark markup nodes)] := hmirror
  rw [Markup.parse, String.toList_ofList] at hp
  have hinert : ∀ l ∈ labelsAll (restoreMark markup nodes), l.Inert := by
    refine labels_restoreMark (P := Inert) rfl (fun s hs => ?_) (inert_of_parse h hp hm)
    rw [Inert, String.toList_append, String.toList_ofList,
      markers_append_of_not_mem (by decide), hs]
  obtain ⟨ts, hts, hs⟩ := exists_settled_ofNodes values registry _ hinert
  obtain ⟨root, hroot, hrounds, hrender⟩ := exists_settled_ofForest_of_get? hr hts hs
  refine ⟨root.fold, ?_, (render_fold_of_rounds root hrounds).trans hrender⟩
  rw [compile, ofMarkup, hw]
  exact congrArg (Except.map fold) hroot

/-- The byte-order mark of the markup, which is a text in what is rendered, is dropped when this is
read. -/
theorem dropByteOrderMark_render (h : StaticMarkup markup)
    (hp : Markup.parse .strict (String.ofList (trim markup.toList)) = .ok nodes)
    (hb : (trim markup.toList).head? = some '\uFEFF' ∨
      ∀ s, nodes.head? = some (.text s) → s.toList.head? ≠ some '\uFEFF') :
    Markup.dropByteOrderMark (verbatimAll (collapsedAll (restoreMark markup nodes))).toList =
      (verbatimAll (collapsedAll nodes)).toList := by
  have hfront (ns : List Node) :
      (verbatimAll (collapsedAll (Node.prependText ['\uFEFF'] ns))).toList =
        '\uFEFF' :: (verbatimAll (collapsedAll ns)).toList := by
    have hsolid : Solid ['\uFEFF'] := List.forall_mem_singleton.mpr rfl
    rw [Node.prependText.eq_def]
    split
    · rw [collapsedAll, collapsedAll, Node.collapsed, Node.collapsed, verbatimAll, verbatimAll,
        Node.verbatim, Node.verbatim, String.toList_append, String.toList_append,
        String.toList_append, String.toList_ofList, String.toList_ofList, String.toList_ofList,
        collapse_solid_append hsolid]
      rfl
    · rw [collapsedAll, Node.collapsed, verbatimAll, Node.verbatim, String.toList_append,
        String.toList_ofList, String.toList_ofList]
      rfl
  rw [Markup.parse, String.toList_ofList] at hp
  rw [restoreMark, h.prepare_eq, String.toList_ofList]
  split
  · rw [hfront]
    rfl
  · rename_i hne
    exact Markup.dropByteOrderMark_of_head? (Markup.head?_verbatimAll
      (Markup.delivered_of_parseChars h.ampersand_not_mem_trim hp)
      (Markup.spaced_of_parseChars hp).1 (hb.resolve_left hne))

/-- **Static markup is rendered faithfully**, as far as its nodes are printable: what is rendered is
read as the nodes that the trimmed markup is read as, with their blanks in order. No marker may
come about in a text from parts of the markup, and the first node may not be a text that begins with
a byte-order mark, unless the markup begins with one itself. -/
theorem parse_render_static {registry : Registry ω String}
    (hr : registry.get? containerTag = none) (h : StaticMarkup markup) {t : Tree ω String}
    (ht : compile registry markup = .ok t) (values : List Value) :
    ∃ nodes, Markup.parse .strict (String.ofList (trim markup.toList)) = .ok nodes ∧
      (PrintableAll nodes → (∀ l ∈ labelsAll nodes, ∀ s ∈ l.text?, markers s.toList = []) →
        ((trim markup.toList).head? = some '\uFEFF' ∨
          ∀ s, nodes.head? = some (.text s) → s.toList.head? ≠ some '\uFEFF') →
        ∃ output, t.render .text values = .succeed (.ready output) ∧
          Markup.parse .lenient output = .ok (collapsedAll nodes)) := by
  have hmirror := mirrors_parse_wrap h.sparesContainer
  rw [h.prepare_eq] at hmirror
  cases hp : Markup.parse .strict (String.ofList (trim markup.toList)) with
  | error error =>
    rw [hp] at hmirror
    obtain ⟨error', he⟩ := hmirror
    rw [compile, ofMarkup, he] at ht
    cases ht
  | ok nodes =>
    refine ⟨nodes, rfl, fun hprint hm hb => ?_⟩
    obtain ⟨t', ht', hrender⟩ := exists_render_static hr h hp hm values
    obtain rfl := Except.ok.inj (ht.symm.trans ht')
    refine ⟨_, hrender, ?_⟩
    have hchars := hp
    rw [Markup.parse, String.toList_ofList] at hchars
    exact Markup.parse_verbatimAll h.ampersand_not_mem_trim hchars hprint
      (dropByteOrderMark_render h hp hb)

/-- A value in single quotes, an empty element and character data are written in the one notation
for each, and runs of blanks are collapsed in the text only. -/
theorem parse_render_static_page :
    let page := " <!DOCTYPE html><p id=' a  b '>1  >  2<br/><![CDATA[[x]]]></p><!-- - --> "
    let nodes : List Node := [.doctype "html",
      .element "p" [("id", " a  b ")] [.text "1  >  2", .element "br" [] [], .text "[x]"],
      .comment " - "]
    (Registry.empty : Registry Unit String).get? containerTag = none ∧ StaticMarkup page ∧
      PrintableAll nodes ∧
      ∃ t : Tree Unit String, compile .empty page = .ok t ∧
        t.render .text [] = .succeed
          (.ready "<!DOCTYPE html><p id=\" a  b \">1 > 2<br>[x]</p><!-- - -->") ∧
        ∃ output, t.render .text [] = .succeed (.ready output) ∧
          Markup.parse .lenient output = .ok (collapsedAll nodes) := by
  intro page nodes
  have hs : StaticMarkup page := by decide +kernel
  have hp : Markup.parse .strict (String.ofList (trim page.toList)) = .ok nodes := by
    decide +kernel
  have hprint : PrintableAll nodes := by decide +kernel
  have hm : ∀ l ∈ labelsAll nodes, ∀ s ∈ l.text?, markers s.toList = [] := by decide +kernel
  have hr : (Registry.empty : Registry Unit String).get? containerTag = none := rfl
  obtain ⟨t, ht, hrender⟩ := exists_render_static hr hs hp hm []
  obtain ⟨nodes', hp', hread⟩ := parse_render_static hr hs ht []
  obtain rfl := Except.ok.inj (hp.symm.trans hp')
  refine ⟨hr, hs, hprint, t, ht, hrender.trans ?_, hread hprint hm (.inr nofun)⟩
  have ho : verbatimAll (collapsedAll (restoreMark page nodes)) =
      "<!DOCTYPE html><p id=\" a  b \">1 > 2<br>[x]</p><!-- - -->" := by decide +kernel
  rw [ho]

/-! ### What is not read back -/

/-- Static markup with the nodes it is read as, which are lost where they are written. -/
def unprintable : List (String × List Node) :=
  -- The parts of a marker meet in a text.
  [("[[<![CDATA[[5]]]]]>", [.text "[[[5]]]"]),
    -- A quote ends the value.
    ("<p title='a\"b'>x</p>", [.element "p" [("title", "a\"b")] [.text "x"]]),
    -- A bracket opens a tag.
    ("<![CDATA[a<b]]>", [.text "a<b"]),
    -- A local name begins a declaration, ends an empty tag or has a prefix of its own.
    ("<x:!a/>", [.element "!a" [] []]),
    ("<a//>", [.element "a/" [] []]),
    ("<a:b:c/>", [.element "b:c" [] []]),
    -- Quotes in names are paired otherwise, in an end tag or with the quotes of values.
    ("<a' b'='c'/>", [.element "a'" [("b'", "c")] []]),
    ("<a b\"='>' c\"=\"c\"/>", [.element "a" [("b\"", ">"), ("c\"", "c")] []]),
    -- Nothing is declared.
    ("<!DOCTYPE\u00A0>", [.doctype ""]),
    ("<?xml\u00A0a?>", [.instruction "xml" "a"]),
    -- A byte-order mark is dropped at the front of what is written.
    ("<![CDATA[\uFEFF]]>", [.text "\uFEFF"])]

/-- If what static markup is rendered to is not read as its nodes, no output is. -/
private theorem not_faithful {registry : Registry ω String}
    (hr : registry.get? containerTag = none) (h : StaticMarkup markup)
    (hp : Markup.parse .strict (String.ofList (trim markup.toList)) = .ok nodes)
    (hm : ∀ l ∈ labelsAll nodes, ∀ s ∈ l.text?, markers s.toList = [])
    (hne : Markup.parse .lenient (verbatimAll (collapsedAll (restoreMark markup nodes))) ≠
      .ok (collapsedAll nodes)) :
    ∃ t, compile registry markup = .ok t ∧
      ¬ ∃ output, t.render .text values = .succeed (.ready output) ∧
        Markup.parse .lenient output = .ok (collapsedAll nodes) := by
  obtain ⟨t, ht, hrender⟩ := exists_render_static hr h hp hm values
  refine ⟨t, ht, fun ⟨output, ho, hread⟩ => hne ?_⟩
  have he := Rendered.ready.inj
    (Except.ok.inj (congrArg Attempt.result (hrender.symm.trans ho)))
  rw [he]
  exact hread

/-- **Writing as it stands loses what other notations deliver**: markup without references, markers,
calls and void elements that is compiled and not rendered to markup that is read as its nodes. -/
theorem render_static_unprintable : unprintable.Forall fun p =>
    StaticMarkup p.1 ∧ Markup.parse .strict (String.ofList (trim p.1.toList)) = .ok p.2 ∧
      (∀ name ∈ Node.names p.2, isVoid name = false) ∧
      ∃ t : Tree Unit String, compile .empty p.1 = .ok t ∧
        ¬ ∃ output, t.render .text [] = .succeed (.ready output) ∧
          Markup.parse .lenient output = .ok (collapsedAll p.2) := by
  have hread : ∀ p ∈ unprintable, StaticMarkup p.1 ∧
      Markup.parse .strict (String.ofList (trim p.1.toList)) = .ok p.2 ∧
      ∀ name ∈ Node.names p.2, isVoid name = false := by decide +kernel
  have hlost : ∀ p ∈ unprintable.tail,
      (∀ l ∈ labelsAll p.2, ∀ s ∈ l.text?, markers s.toList = []) ∧
      Markup.parse .lenient (verbatimAll (collapsedAll (restoreMark p.1 p.2))) ≠
        .ok (collapsedAll p.2) := by decide +kernel
  refine List.forall_iff_forall_mem.mpr fun p hp => ?_
  obtain ⟨hs, hnodes, hvoid⟩ := hread p hp
  refine ⟨hs, hnodes, hvoid, ?_⟩
  rcases List.mem_cons.mp hp with rfl | hp
  · have hc := Fragments.compile_seam
    rw [Fragments.join, Fragments.joinFrom, String.ofList_toList] at hc
    refine ⟨_, hc, ?_⟩
    rintro ⟨output, ho, -⟩
    cases congrArg Attempt.result ho
  · obtain ⟨hm, hne⟩ := hlost p hp
    exact not_faithful rfl hs hnodes hm hne

end Tree

end MarkupTemplate
