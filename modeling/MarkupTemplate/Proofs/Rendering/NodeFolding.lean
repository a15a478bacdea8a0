import MarkupTemplate.Proofs.KeyedLists
import MarkupTemplate.Proofs.Markup.RoundTrip
import MarkupTemplate.Proofs.Rendering.Folding
import MarkupTemplate.Proofs.Rendering.Prompt
import MarkupTemplate.Proofs.Template.Nodes

/-!
# Folding and nodes

A folded part of a tree is markup, and the node backend has to read it back, while it builds the
nodes of the unfolded part one by one. The two agree if the markup describes the same nodes
wherever it stands (`MarkupTemplate.Describes`), so that neighbours may be joined to one text.

This is not so for every tree. An ampersand that begins no reference cannot be read leniently, and
all the markup that it was joined with then stays a text. A literal attribute value is set as it
stands in an unfolded element, but unescaped in a folded one, and what stands in a void element
comes behind it when it is read back. Trees without these are legible
(`MarkupTemplate.Tree.Legible`).

## Main definitions

* `MarkupTemplate.Describes` — markup with the nodes that are made of it.
* `MarkupTemplate.Tree.Legible` — trees whose folded parts can be read back.

## Main results

* `MarkupTemplate.Tree.nodesAll_foldAll` — folding keeps the nodes of legible siblings.
* `MarkupTemplate.Tree.render_fold_dom` — folding keeps the rendering to nodes.
* `MarkupTemplate.Tree.render_fold_ampersand` — an ampersand that begins no reference.
-/

namespace MarkupTemplate

open Dom Markup Text

variable {ω ο : Type}

/-! ### Markup in the node backend -/

/-- Markup of which these nodes are made, also if other markup of this kind stands around it. -/
structure Describes (markup : String) (ns : List Node) : Prop where
  yields : Yields markup.toList ns
  separated : Separated ns
  flat : Node.flattenAll ns = ns
  noMark : markup.toList.head? ≠ some '\uFEFF'

namespace Describes

variable {a b : String} {ms ns : List Node}

/-- The node of markup amounts to the nodes that it describes. -/
theorem flatten_nodeOfMarkup (h : Describes a ns) : (Backend.nodeOfMarkup a).flatten = ns := by
  have hp : parse .lenient a = .ok ns :=
    parseChars_of_yields (dropByteOrderMark_of_head? h.noMark) h.yields h.separated
  rw [Backend.nodeOfMarkup, hp]
  split
  · rename_i n he
    cases he
    exact (List.append_nil _).symm.trans h.flat
  · rename_i he
    cases he
    rw [Node.ofList, Node.flatten, h.flat, h.flat]
  · rename_i he
    cases he

theorem append (ha : Describes a ms) (hb : Describes b ns) (h : Separated (ms ++ ns)) :
    Describes (a ++ b) (ms ++ ns) where
  yields := by
    rw [String.toList_append]
    exact ha.yields.append hb.yields
  separated := h
  flat := by rw [Node.flattenAll_append, ha.flat, hb.flat]
  noMark := by
    rw [String.toList_append, List.head?_append]
    cases hh : a.toList.head? with
    | none => exact hb.noMark
    | some c => exact fun he => ha.noMark (hh.trans he)

end Describes

/-- Words describe one text. -/
theorem describes_words {markup : String} {ds : List Char} (h : Words markup.toList ds)
    (hne : markup ≠ "") (hb : markup.toList.head? ≠ some '\uFEFF') :
    Describes markup [.text (String.ofList ds)] where
  yields := h.yields
  separated := by
    have hd : ds ≠ [] := h.ne_nil fun he => hne (String.toList_eq_nil_iff.mp he)
    exact ⟨fun he => hd (String.ofList_eq_empty_iff.mp he), rfl, trivial⟩
  flat := rfl
  noMark := hb

/-- The markup of a normal node that is no text describes it. -/
theorem describes_outerHtml {n : Node} (h : n.Normal) (ht : startsText [n] = false) :
    Describes n.outerHtml [n] where
  yields := yields_write n h 0
  separated := Node.separated_of_normalAll ⟨h, by simp [ht], trivial⟩
  flat := by
    cases n with
    | fragment => exact h.elim
    | _ => rfl
  noMark := by
    obtain ⟨c, cs, he, hc⟩ := exists_write_eq_cons h fun s hs => by rw [hs] at ht; cases ht
    rw [Node.outerHtml, Node.outer, he]
    exact fun heq => hc (Option.some.inj heq)

theorem toList_startMarkup (tag : String) (attrs : List (String × String)) :
    (startMarkup tag attrs).toList =
      '<' :: (tagMarkup id tag.toList (rawAttributes attrs) ++ ['>']) := by
  have hid : ∀ s : String, (id s).toList = id s.toList := fun _ => rfl
  have ha := toList_join_attributes hid attrs
  simp only [id] at ha
  rw [startMarkup]
  simp [ha, tagMarkup]

/-- An element yields itself around what its content yields. -/
theorem yields_elementMarkup {tag : String} {attrs : List (String × String)}
    (hn : Writable id tag.toList (rawAttributes attrs)) (hr : Readable id (rawAttributes attrs))
    {content : String} {ns : List Node} (hc : Yields content.toList ns) (hs : Separated ns)
    (hv : isVoid tag = true → content = "" ∧ ns = []) :
    Yields (elementMarkup tag attrs content).toList [.element tag attrs ns] := by
  cases hvoid : isVoid tag with
  | true =>
    obtain ⟨rfl, rfl⟩ := hv hvoid
    have he : elementMarkup tag attrs "" = startMarkup tag attrs := by
      rw [elementMarkup, hvoid]
      rfl
    have hy := yields_void hn hr (by rw [String.ofList_toList]; exact hvoid)
    rw [String.ofList_toList, attributes_rawAttributes, ← toList_startMarkup] at hy
    rwa [he]
  | false =>
    have he : (elementMarkup tag attrs content).toList =
        '<' :: (tagMarkup id tag.toList (rawAttributes attrs) ++ '>' ::
          (content.toList ++ '<' :: '/' :: (tag.toList ++ ['>']))) := by
      rw [elementMarkup, hvoid]
      simp [toList_startMarkup]
    have hy := yields_element hn hr (by rw [String.ofList_toList]; exact hvoid) hc hs
    rwa [String.ofList_toList, attributes_rawAttributes, ← he] at hy

theorem exists_elementMarkup_eq_cons (tag : String) (attrs : List (String × String))
    (content : String) : ∃ cs, (elementMarkup tag attrs content).toList = '<' :: cs := by
  rw [elementMarkup]
  split <;> simp [toList_startMarkup]

/-- An element describes itself around what its content describes. Its values are written as they
are, so they may have no ampersands. -/
theorem describes_elementMarkup {tag : String} {attrs : List (String × String)}
    (hn : IsTagName tag.toList) (hnames : ∀ attr ∈ attrs, IsTagName attr.1.toList)
    (hnodup : (attrs.map Prod.fst).Nodup)
    (hplain : ∀ attr ∈ attrs, '&' ∉ attr.2.toList ∧ '"' ∉ attr.2.toList) {content : String}
    {ns : List Node} (hc : Yields content.toList ns) (hs : Separated ns)
    (hv : isVoid tag = true → content = "" ∧ ns = []) :
    Describes (elementMarkup tag attrs content) [.element tag attrs ns] where
  yields := by
    have hr : Readable id (rawAttributes attrs) :=
      readable_rawAttributes hnames hnodup (fun attr ha => (hplain attr ha).2)
        fun attr ha => unescape_self (hplain attr ha).1
    exact yields_elementMarkup (hn.writable (isTagName_rawAttributes hnames) hr) hr hc hs hv
  separated := trivial
  flat := rfl
  noMark := by
    obtain ⟨cs, he⟩ := exists_elementMarkup_eq_cons tag attrs content
    rw [he]
    exact nofun

/-! ### Legible trees -/

/-- Attributes that are all literals are these. -/
theorem Attributes.eq_of_literals? {attrs : Attributes} {texts : List (String × String)}
    (h : attrs.literals? = some texts) :
    attrs = texts.map fun attr => (attr.1, .single (.text attr.2)) := by
  fun_induction Attributes.literals? attrs generalizing texts with
  | case1 =>
    cases h
    rfl
  | case2 name s attrs ih =>
    obtain ⟨rest, hr, rfl⟩ := Option.map_eq_some_iff.mp h
    rw [List.map_cons, ← ih hr]
  | case3 => cases h

/-- A tag whose literal values can be written without escapes. -/
structure LegibleTag (tag : String) (attrs : Attributes) : Prop where
  name : IsTagName tag.toList
  names : ∀ attr ∈ attrs, IsTagName attr.1.toList
  nodup : (attrs.map Prod.fst).Nodup
  values : ∀ attr ∈ attrs, ∀ s, attr.2 = .single (.text s) → '&' ∉ s.toList ∧ '"' ∉ s.toList

namespace Tree

/-- Whether a tree is folded to a text. -/
def IsStatic (t : Tree ω ο) : Prop := ∃ markup, t.fold = .text markup

/-- A text in which every ampersand begins a reference. -/
def IsWords : Tree ω ο → Prop
  | text markup => ∃ ds, Words markup.toList ds
  | _ => False

/-- Siblings of which the first is such a text. -/
def StartsWords : List (Tree ω ο) → Prop
  | [] => False
  | t :: _ => t.IsWords

mutual

/-- A tree whose static parts can be read back: texts are words or the markup of one node, and
static elements have legible tags, and no content if they are void. -/
def Legible : Tree ω ο → Prop
  | text markup =>
    (markup ≠ "" ∧ markup.toList.head? ≠ some '\uFEFF' ∧ ∃ ds, Words markup.toList ds) ∨
      ∃ n : Node, n.Normal ∧ startsText [n] = false ∧ markup = n.outerHtml
  | reference _ => True
  | element tag attrs children =>
    (IsStatic (.element tag attrs children) →
        LegibleTag tag attrs ∧ (isVoid tag = true → children = [])) ∧ LegibleAll children
  | component _ _ children => LegibleAll children

/-- Legible siblings, of which no two that follow each other are words. -/
def LegibleAll : List (Tree ω ο) → Prop
  | [] => True
  | t :: ts => t.Legible ∧ (t.IsWords → ¬ StartsWords ts) ∧ LegibleAll ts

end

/-! ### Folding -/

variable {values : List Value}

theorem nodes_text {markup : String} {ns : List Node} (h : Describes markup ns) :
    (text markup : Tree ω Node).nodes values = pure ns := by
  rw [← h.flatten_nodeOfMarkup]
  rfl

theorem nodes_element {children : List (Tree ω Node)} (h : PromptAll children) (tag : String)
    (attrs : Attributes) :
    (element tag attrs children).nodes values = do
      let texts ← Attempt.ofExcept (resolveAttributes values attrs)
      let ns ← nodesAll values children
      return [.element tag (KeyedList.ofPairs texts) ns] := by
  rw [nodes, render_dom_element h]
  simp only [bind_assoc, pure_bind]
  rfl

theorem nodes_component {children : List (Tree ω Node)} (h : PromptAll children)
    (c : Component ω Node) (attrs : Attributes) :
    (component c attrs children).nodes values = do
      let texts ← Attempt.ofExcept (resolveAttributes values attrs)
      let wholes ← Attempt.ofExcept (wholeValues values attrs)
      let ns ← nodesAll values children
      let r ← c.render (.ofParts texts wholes (.fragment ns))
      return r.nodes := by
  rw [nodes, render_dom_component h]
  simp only [bind_assoc]

/-- A tree that is folded to a text amounts to the one node that the text describes. -/
def FoldsToNode (values : List Value) (t : Tree ω Node) : Prop :=
  ∀ markup, t.fold = .text markup → ∃ n, Describes markup [n] ∧ t.nodes values = pure [n] ∧
    (startsText [n] = true → t.IsWords)

/-- A text in front of folded siblings describes nodes, a text only if one was there before. -/
def FoldsToNodes (ts : List (Tree ω Node)) : Prop :=
  ∀ markup us, foldAll ts = .text markup :: us → ∃ ns, Describes markup ns ∧
    (startsText ns = true → StartsWords ts)

/-- Static children amount to the nodes that their markup describes. -/
theorem exists_nodesAll_of_content? (values : List Value) {children : List (Tree ω Node)}
    {content : String}
    (h : FoldsToNodes children) (hc : content? (foldAll children) = some content) :
    ∃ ns, Yields content.toList ns ∧ Separated ns ∧
      nodesAll values (foldAll children) = pure ns := by
  rw [content?.eq_def] at hc
  split at hc
  · rename_i hf
    cases hc
    exact ⟨[], yields_nil, trivial, by rw [hf]; rfl⟩
  · rename_i markup hf
    cases hc
    obtain ⟨ns, hd, -⟩ := h content [] hf
    refine ⟨ns, hd.yields, hd.separated, ?_⟩
    rw [hf, nodesAll, nodes_text hd]
    exact congrArg pure (List.append_nil ns)
  · cases hc

theorem foldsToNode_text {markup : String} (h : (text markup : Tree ω Node).Legible) :
    FoldsToNode values (text markup : Tree ω Node) := by
  intro m hm
  cases hm
  rcases h with ⟨hne, hb, ds, hw⟩ | ⟨n, hn, ht, rfl⟩
  · have hd := describes_words hw hne hb
    exact ⟨_, hd, nodes_text hd, fun _ => ⟨ds, hw⟩⟩
  · have hd := describes_outerHtml hn ht
    exact ⟨n, hd, nodes_text hd, fun hs => by rw [ht] at hs; cases hs⟩

/-- A static element is folded to the markup of its node. -/
theorem foldsToNode_element {tag : String} {attrs : Attributes} {children : List (Tree ω Node)}
    (hp : PromptAll children) (hl : Legible (.element tag attrs children))
    (hf : FoldsToNodes children)
    (ih : nodesAll values (foldAll children) = nodesAll values children) :
    FoldsToNode values (.element tag attrs children) := by
  intro markup hm
  obtain ⟨htag, hvoid⟩ := hl.1 ⟨markup, hm⟩
  rw [fold, foldElement] at hm
  split at hm
  · rename_i content texts hc ht
    cases hm
    obtain ⟨ns, hy, hs, hn⟩ := exists_nodesAll_of_content? values hf hc
    obtain rfl := Attributes.eq_of_literals? ht
    have hv : isVoid tag = true → content = "" ∧ ns = [] := fun h => by
      obtain rfl := hvoid h
      cases hc
      exact ⟨rfl, (Except.ok.inj (congrArg Attempt.result hn)).symm⟩
    have hmem {attr : String × String} (ha : attr ∈ texts) :
        (attr.1, AttrValue.single (.text attr.2)) ∈
          texts.map fun attr => (attr.1, AttrValue.single (.text attr.2)) :=
      List.mem_map_of_mem ha
    have hnodup : (texts.map Prod.fst).Nodup := by
      have hn := htag.nodup
      rwa [List.map_map] at hn
    refine ⟨.element tag texts ns, ?_, ?_, fun hs => by cases hs⟩
    · exact describes_elementMarkup htag.name (fun attr ha => htag.names _ (hmem ha)) hnodup
        (fun attr ha => htag.values _ (hmem ha) _ rfl) hy hs hv
    · rw [nodes_element hp, resolveAttributes_of_literals? ht, ← ih, hn]
      exact congrArg (fun attrs => pure [Node.element tag attrs ns])
        (KeyedList.ofPairs_of_nodup hnodup)
  · cases hm

/-- Two texts that meet describe their nodes in a row. -/
theorem describes_merged {t : Tree ω Node} {ts us : List (Tree ω Node)} {a b : String}
    (h : t.IsWords → ¬ StartsWords ts) (ht : FoldsToNode values t) (hts : FoldsToNodes ts)
    (ha : t.fold = .text a) (hb : foldAll ts = .text b :: us) :
    ∃ n ns, Describes b ns ∧ Describes (a ++ b) (n :: ns) ∧ t.nodes values = pure [n] ∧
      (startsText [n] = true → t.IsWords) := by
  obtain ⟨n, hn, hnodes, hw⟩ := ht a ha
  obtain ⟨ns, hns, hsw⟩ := hts b us hb
  have hs : Separated (n :: ns) := separated_cons hn.separated hns.separated fun htext =>
    Bool.eq_false_iff.mpr fun hstart => h (hw htext) (hsw hstart)
  exact ⟨n, ns, hns, hn.append hns hs, hnodes, hw⟩

theorem foldsToNodes_cons {t : Tree ω Node} {ts : List (Tree ω Node)}
    (h : t.IsWords → ¬ StartsWords ts) (ht : FoldsToNode values t) (hts : FoldsToNodes ts) :
    FoldsToNodes (t :: ts) := by
  intro markup us he
  rw [foldAll, consMerged.eq_def] at he
  split at he
  · rename_i a b _ ha hb
    cases he
    obtain ⟨n, ns, -, hd, -, hw⟩ := describes_merged h ht hts ha hb
    refine ⟨n :: ns, hd, fun hstart => hw ?_⟩
    cases n with
    | text => rfl
    | _ => cases hstart
  · obtain ⟨ha, -⟩ := List.cons_eq_cons.mp he
    obtain ⟨n, hn, -, hw⟩ := ht markup ha
    exact ⟨[n], hn, hw⟩

/-- Two texts that meet may be joined before they are read. -/
theorem nodesAll_consMerged {t : Tree ω Node} {ts : List (Tree ω Node)}
    (h : t.IsWords → ¬ StartsWords ts) (ht : FoldsToNode values t) (hts : FoldsToNodes ts)
    (hfold : t.fold.nodes values = t.nodes values) :
    nodesAll values (consMerged t.fold (foldAll ts)) = do
      let ns ← t.nodes values
      let ms ← nodesAll values (foldAll ts)
      return ns ++ ms := by
  rw [consMerged.eq_def]
  split
  · rename_i a b us ha hb
    obtain ⟨n, ns, hns, hd, hnodes, -⟩ := describes_merged h ht hts ha hb
    rw [hnodes, hb, nodesAll, nodesAll, nodes_text hd, nodes_text hns]
    simp only [pure_bind, bind_assoc]
    rfl
  · rw [nodesAll, hfold]

mutual

/-- Folding keeps the nodes of a legible tree. -/
theorem nodes_fold : (t : Tree ω Node) → t.Prompt → t.Legible →
    FoldsToNode values t ∧ t.fold.nodes values = t.nodes values
  | text _, _, h => ⟨foldsToNode_text h, rfl⟩
  | reference _, _, _ => ⟨nofun, rfl⟩
  | element tag attrs children, hp, hl => by
    obtain ⟨hf, ih⟩ := nodesAll_foldAll children hp hl.2
    have hnode := foldsToNode_element hp hl hf ih
    refine ⟨hnode, ?_⟩
    by_cases hs : IsStatic (.element tag attrs children)
    · obtain ⟨markup, hm⟩ := hs
      obtain ⟨n, hd, hn, -⟩ := hnode markup hm
      rw [hm, nodes_text hd, hn]
    · have he : (element tag attrs children).fold = .element tag attrs (foldAll children) := by
        rw [fold, foldElement]
        split
        · rename_i hc ht
          exact absurd ⟨_, by rw [fold, foldElement, hc, ht]⟩ hs
        · rfl
      rw [he, nodes_element (promptAll_foldAll children hp), nodes_element hp, ih]
  | component c attrs children, hp, hl => by
    obtain ⟨-, ih⟩ := nodesAll_foldAll children hp.2 hl
    refine ⟨nofun, ?_⟩
    rw [fold, nodes_component (promptAll_foldAll children hp.2), nodes_component hp.2, ih]

/-- Folding keeps the nodes of legible siblings. -/
theorem nodesAll_foldAll : (ts : List (Tree ω Node)) → PromptAll ts → LegibleAll ts →
    FoldsToNodes ts ∧ nodesAll values (foldAll ts) = nodesAll values ts
  | [], _, _ => ⟨nofun, rfl⟩
  | t :: ts, hp, hl => by
    obtain ⟨ht, hfold⟩ := nodes_fold t hp.1 hl.1
    obtain ⟨hts, ih⟩ := nodesAll_foldAll ts hp.2 hl.2.2
    refine ⟨foldsToNodes_cons hl.2.1 ht hts, ?_⟩
    rw [foldAll, nodesAll_consMerged hl.2.1 ht hts hfold, ih]
    rfl

end

/-- Attempts at the same nodes, at once, fail alike or give nodes with the same markup. -/
theorem outerHtml_eq_of_nodes {x y : Attempt ω (Rendered ω Node)} (hx : x.Prompt) (hy : y.Prompt)
    (h : (do let r ← x; return r.nodes) = (do let r ← y; return r.nodes : Attempt ω _)) :
    x.events = y.events ∧
      ((∃ error, x.result = .error error ∧ y.result = .error error) ∨
        ∃ m n, x.result = .ok (.ready m) ∧ y.result = .ok (.ready n) ∧
          m.outerHtml = n.outerHtml) := by
  rcases x with ⟨es, error | r⟩ <;> rcases y with ⟨fs, error' | r'⟩
  · cases h
    exact ⟨rfl, Or.inl ⟨error, rfl, rfl⟩⟩
  · cases congrArg Attempt.result h
  · cases congrArg Attempt.result h
  · obtain ⟨m, rfl⟩ := hx r rfl
    obtain ⟨n, rfl⟩ := hy r' rfl
    have he : es ++ [] = fs ++ [] := congrArg Attempt.events h
    have hn : m.flatten = n.flatten := Except.ok.inj (congrArg Attempt.result h)
    exact ⟨List.append_cancel_right he,
      Or.inr ⟨m, n, rfl, rfl, Node.outerHtml_eq_of_flatten hn⟩⟩

/-- **Folding does not show in nodes**, as far as what is folded can be read back. Markup for
components that answer at once, whose tree is legible, is rendered with and without folding to
nodes of the same markup, or to the same error, and with the same events. -/
theorem render_fold_dom {registry : Registry ω Node} (hr : registry.Prompt) {markup : String}
    {t : Tree ω Node} (ht : ofMarkup registry markup = .ok t) (hl : t.Legible)
    (values : List Value) :
    (t.fold.render .dom values).events = (t.render .dom values).events ∧
      ((∃ error, (t.fold.render .dom values).result = .error error ∧
          (t.render .dom values).result = .error error) ∨
        ∃ m n, (t.fold.render .dom values).result = .ok (.ready m) ∧
          (t.render .dom values).result = .ok (.ready n) ∧ m.outerHtml = n.outerHtml) := by
  have hp := prompt_ofMarkup hr ht
  exact outerHtml_eq_of_nodes (prompt_render values _ (prompt_fold t hp))
    (prompt_render values t hp) (nodes_fold t hp hl).2

/-- A component that puts its children in a section. -/
def box : Component Unit Node :=
  ⟨"Box", 1, fun props => .succeed (.ready (.element "section" [] props.children.flatten))⟩

/-- The registry of this component. -/
def sections : Registry Unit Node := Registry.empty.insert "Box" box.render

/-- A call of the component around a static element and a slot. -/
def boxed : Tree Unit Node :=
  .component box []
    [.element "p" [("id", .single (.text "x"))] [.text "1 &amp; 2"], .reference 0]

/-- What stands in the call, as it is written. -/
private def boxContent : Template :=
  .element "p".toList [("id".toList, [.literal "x".toList])]
    (.text [.literal "1 &amp; 2".toList] .nil) (.text [.slot .null] .nil)

private theorem wellFormed_boxContent : boxContent.WellFormed := by
  have hname : ∀ name ∈ ["p".toList, "id".toList], IsName name := by simp [IsName]
  have hid : ∀ attr ∈ [("id".toList, [Piece.literal "x".toList])],
      IsName attr.1 ∧ Pieces.WellFormed ['<', '"'] attr.2 :=
    List.forall_mem_singleton.mpr ⟨hname _ (by simp), Pieces.wellFormed_of_avoids trivial rfl⟩
  exact ⟨hname _ (by simp), hid, by simp,
    ⟨Pieces.wellFormed_of_avoids trivial rfl, rfl, trivial⟩,
    Pieces.wellFormed_of_avoids trivial rfl, rfl, trivial⟩

theorem ofMarkup_boxed :
    ofMarkup sections "<Box><p id=\"x\">1 &amp; 2</p>[[[0]]]</Box>" = .ok boxed := by
  have htags : ∀ tag ∈ [containerTag, "Box"], IsTagName tag.toList := by
    simp [IsTagName, isNameChar, containerTag]
  have hw : (wrap "<Box><p id=\"x\">1 &amp; 2</p>[[[0]]]</Box>").toList =
      '<' :: (tagMarkup escapeAmpersands containerTag.toList [] ++ '>' ::
        ('<' :: (tagMarkup escapeAmpersands "Box".toList [] ++ '>' ::
          (escapeAmpersands (boxContent.mark 0) ++ '<' :: '/' :: ("Box".toList ++ ['>']))) ++
        '<' :: '/' :: (containerTag.toList ++ ['>']))) := by decide
  have hp : parse .strict (wrap "<Box><p id=\"x\">1 &amp; 2</p>[[[0]]]</Box>") =
      .ok [.element containerTag [] [.element "Box" [] (boxContent.nodes 0)]] := by
    have hc : Reads .strict (escapeAmpersands (boxContent.mark 0)) (boxContent.nodes 0) :=
      boxContent.writtenAs_holed.reads_mark wellFormed_boxContent 0
    rw [parse, hw, parseChars_element (htags _ (by simp)).writable_nil readable_nil rfl
      (hc.element (htags _ (by simp)).writable_nil readable_nil rfl)]
    rfl
  have hn : boxContent.nodes 0 =
      [.element "p" [("id", "x")] [.text "1 &amp; 2"], .text "[[[0]]]"] := by decide
  have htext : decodeMarkers (collapse "1 &amp; 2".toList) = [.text "1 &amp; 2".toList] :=
    decodeMarkers_of_not_mem (by decide)
  have hvalue : decodeMarkers (collapseEdges "x".toList) = [.text "x".toList] :=
    decodeMarkers_of_not_mem (by decide)
  have hslot : decodeMarkers (collapse "[[[0]]]".toList) = [.reference 0] := by
    have hm := decodeMarkers_of_isMarker (isMarker_marker (n := 0) (by decide)) []
    rw [decodeMarkers_nil] at hm
    exact hm
  have hattrs : Attributes.ofTexts [("id", "x")] = [("id", .single (.text "x"))] := by
    rw [Attributes.ofTexts, List.map_singleton, AttrValue.ofText, if_neg (by decide), hvalue]
    rfl
  have hnodes : ofNodes sections (boxContent.nodes 0) =
      .ok [.element "p" [("id", .single (.text "x"))] [.text "1 &amp; 2"], .reference 0] := by
    rw [hn]
    simp only [ofNodes, ofNode, ofText, htext, hslot, ofElement, hattrs]
    rfl
  rw [ofMarkup, hp]
  simp only [ofForest, ofRoot, ofNode, hnodes]
  rfl

theorem legible_boxed : boxed.Legible := by
  have hw : Words "1 &amp; 2".toList "1 & 2".toList := words_escapeText "1 & 2".toList
  have htag : LegibleTag "p" [("id", .single (.text "x"))] :=
    { name := by simp [IsTagName, isNameChar]
      names := by simp [IsTagName, isNameChar]
      nodup := by decide
      values := fun attr ha s hs => by
        rw [List.mem_singleton.mp ha] at hs
        cases hs
        decide }
  have hp : Legible (.element "p" [("id", .single (.text "x"))] [.text "1 &amp; 2"] :
      Tree Unit Node) :=
    ⟨fun _ => ⟨htag, by decide⟩, Or.inl ⟨by decide, by decide, _, hw⟩, fun _ => id, trivial⟩
  exact ⟨hp, nofun, trivial, nofun, trivial⟩

theorem render_fold_boxed :
    sections.Prompt ∧
      ofMarkup sections "<Box><p id=\"x\">1 &amp; 2</p>[[[0]]]</Box>" = .ok boxed ∧
      boxed.Legible ∧
      (boxed.fold.render .dom [.str "<"]).events = (boxed.render .dom [.str "<"]).events ∧
      ((∃ error, (boxed.fold.render .dom [.str "<"]).result = .error error ∧
          (boxed.render .dom [.str "<"]).result = .error error) ∨
        ∃ m n, (boxed.fold.render .dom [.str "<"]).result = .ok (.ready m) ∧
          (boxed.render .dom [.str "<"]).result = .ok (.ready n) ∧
          m.outerHtml = n.outerHtml) := by
  have hr : sections.Prompt := by
    intro name c h
    have hc : sections.get? name = if "Box" = name then some box else none := rfl
    rw [hc] at h
    split at h <;> cases h
    exact fun props r hr => ⟨_, (Except.ok.inj hr).symm⟩
  exact ⟨hr, ofMarkup_boxed, legible_boxed, render_fold_dom hr ofMarkup_boxed legible_boxed _⟩

/-! ### An ampersand that begins no reference -/

/-- Markup that cannot be read stays a text. -/
theorem nodeOfMarkup_of_error {markup : String}
    (h : ∃ error, resume (dropByteOrderMark markup.toList) .lenient .empty
      (dropByteOrderMark markup.toList) = .error error) :
    Backend.nodeOfMarkup markup = .text markup := by
  obtain ⟨error, he⟩ := h
  rw [Backend.nodeOfMarkup, parse, parseChars_eq_resume, he]

/-- A paragraph with an ampersand that begins no reference. -/
private def paragraph : Template :=
  .element "p".toList [] (.text [.literal "Tom & Jerry".toList] .nil) .nil

private theorem wellFormed_paragraph : paragraph.WellFormed :=
  ⟨by simp [IsName], List.forall_mem_nil _, List.nodup_nil,
    ⟨Pieces.wellFormed_of_avoids trivial rfl, rfl, trivial⟩, trivial⟩

theorem ofMarkup_ampersand (registry : Registry ω ο) :
    ofMarkup registry "<p>Tom & Jerry</p>" = .ok (.element "p" [] [.text "Tom & Jerry"]) := by
  have hp := Template.parse_wrap wellFormed_paragraph 0
  have hm : String.ofList (paragraph.mark 0) = "<p>Tom & Jerry</p>" := by decide
  have hn : paragraph.trimmed.nodes 0 = [.element "p" [] [.text "Tom & Jerry"]] := by decide
  have htext : decodeMarkers (collapse "Tom & Jerry".toList) = [.text "Tom & Jerry".toList] :=
    decodeMarkers_of_not_mem (by decide)
  have hnodes : ofNodes registry [.text "Tom & Jerry"] = .ok [.text "Tom & Jerry"] := by
    rw [ofNodes, ofNode, ofText, htext]
    rfl
  rw [hm, hn] at hp
  rw [ofMarkup, hp]
  simp only [ofForest, ofRoot, ofNode, hnodes]
  rfl

/-- The words alone stay a text in the paragraph, and folded the whole paragraph does. -/
theorem render_fold_ampersand :
    ∃ t : Tree Unit Node, ofMarkup .empty "<p>Tom & Jerry</p>" = .ok t ∧
      ∃ m n, (t.fold.render .dom []).result = .ok (.ready m) ∧
        (t.render .dom []).result = .ok (.ready n) ∧
        m.outerHtml = "&lt;p&gt;Tom &amp; Jerry&lt;/p&gt;" ∧
        n.outerHtml = "<p>Tom &amp; Jerry</p>" := by
  have hwords : ∀ c ∈ "Tom ".toList, isText c = true := List.all_eq_true.mp (by decide)
  have hplain : Backend.nodeOfMarkup "Tom & Jerry" = .text "Tom & Jerry" :=
    nodeOfMarkup_of_error (exists_resume_eq_error hwords
      (show splitReference? isTextReference " Jerry".toList = none from rfl))
  have hfolded : Backend.nodeOfMarkup "<p>Tom & Jerry</p>" = .text "<p>Tom & Jerry</p>" := by
    have hn : IsTagName "p".toList := by simp [IsTagName, isNameChar]
    obtain ⟨error, he⟩ : ∃ error, resume "<p>Tom & Jerry</p>".toList .lenient
        ({ Builder.empty with allowance := 1 }.openElement "p" [])
        ("Tom ".toList ++ '&' :: " Jerry</p>".toList) = .error error :=
      exists_resume_eq_error hwords rfl
    have hs : Writable id "p".toList [] := hn.writable_nil
    exact nodeOfMarkup_of_error ⟨error, (resume_startTag hs readable_nil rfl _).trans he⟩
  refine ⟨_, ofMarkup_ampersand .empty, .text "<p>Tom & Jerry</p>",
    .element "p" [] [.text "Tom & Jerry"], ?_, ?_, by decide, by decide⟩
  · exact congrArg (fun n => Except.ok (Rendered.ready n)) hfolded
  · have he : (render .dom [] (.element "p" [] [.text "Tom & Jerry"] : Tree Unit Node)).result =
        .ok (.ready (Backend.nodeOfElement "p" []
          (Node.ofList [Backend.nodeOfMarkup "Tom & Jerry"]))) := rfl
    rw [he, hplain]
    rfl

end Tree

end MarkupTemplate
