import MarkupTemplate.Proofs.Rendering.Folding
import MarkupTemplate.Proofs.Rendering.Slots

/-!
# Rendering templates exactly

A written template, cut at its slots, is compiled and rendered to what is written, with values for
slots and with blanks put in order. Nothing else is lost, doubled or moved on the way through
markers, escaping, reading, decoding and folding, and no component takes part but the container.

## Main definitions

* `MarkupTemplate.Tree.Settled`, `MarkupTemplate.Tree.SettledAll` — trees that are markup at once.

## Main results

* `MarkupTemplate.Template.exists_settledAll_nodes` — the trees of a template.
* `MarkupTemplate.Template.renderFragments_fragments` — fragments render to the output.
-/

namespace MarkupTemplate

open Dom Text

variable {ω ο : Type}

/-! ### Trees that are markup at once -/

namespace Tree

variable (values : List Value)

/-- A tree that renders to this markup at once, and in which no join has to wait. -/
def Settled (t : Tree ω String) (markup : String) : Prop :=
  Rounds values t ∧ t.render .text values = pure (.ready markup)

/-- Siblings each of which renders to its part of this markup at once. -/
inductive SettledAll : List (Tree ω String) → String → Prop
  | nil : SettledAll [] ""
  | cons {t : Tree ω String} {ts : List (Tree ω String)} {a b : String} :
      Settled values t a → SettledAll ts b → SettledAll (t :: ts) (a ++ b)

variable {values} {ts us : List (Tree ω String)} {a b : String}

theorem SettledAll.append (hts : SettledAll values ts a) (hus : SettledAll values us b) :
    SettledAll values (ts ++ us) (a ++ b) := by
  induction hts with
  | nil => rwa [List.nil_append, String.empty_append]
  | cons ht _ ih =>
    rw [List.cons_append, String.append_assoc]
    exact .cons ht ih

theorem SettledAll.roundsAll (h : SettledAll values ts a) : RoundsAll values ts := by
  induction h with
  | nil => exact trivial
  | cons ht _ ih => exact ⟨ht.1, ih⟩

theorem SettledAll.markupAll_eq (h : SettledAll values ts a) :
    markupAll values ts = pure (.ready a) := by
  induction h with
  | nil => rfl
  | cons ht _ ih =>
    rw [markupAll_cons, ht.2, ih]
    rfl

/-- Where all siblings are there at once, their join has nothing to wait for. -/
theorem SettledAll.roundsAt (h : SettledAll values ts a) : RoundsAt values ts := by
  intro rs hrs
  have hr := congrArg Attempt.result h.markupAll_eq
  simp only [markupAll, Attempt.result_bind_pure, hrs] at hr
  have hv := congrArg Rendered.ready? (Except.ok.inj hr)
  rw [Rendered.ready?_appendAll] at hv
  refine Or.inr ?_
  rw [← Option.isSome_map (f := String.join), hv]
  rfl

theorem settled_text (markup : String) : Settled values (.text markup : Tree ω String) markup :=
  ⟨trivial, rfl⟩

theorem settled_reference {index : Nat}
    (h : (Part.reference index).resolve values = .ok a) :
    Settled values (.reference index : Tree ω String) a := by
  obtain ⟨v, hv, rfl⟩ := Except.map_eq_ok_iff.mp h
  refine ⟨trivial, ?_⟩
  rw [render, hv]
  rfl

theorem settled_element {texts : List (String × String)} {attrs : Attributes} (tag : String)
    (ha : resolveAttributes values attrs = .ok texts) (h : SettledAll values ts a) :
    Settled values (.element tag attrs ts) (elementMarkup tag texts a) :=
  ⟨⟨h.roundsAt, h.roundsAll⟩, by rw [render_element h.roundsAt, ha, h.markupAll_eq]; rfl⟩

theorem settled_container (h : SettledAll values ts a) :
    Settled values (.component (.container ω String) [] ts) a :=
  ⟨⟨h.roundsAt, h.roundsAll⟩, by rw [render_component h.roundsAt, h.markupAll_eq]; rfl⟩

/-- Decoded trees render as decoded pieces resolve. -/
theorem settledAll_segments {segments : List Segment}
    (h : resolveParts values (segments.map Segment.part) = .ok a) :
    SettledAll values (segments.map Segment.tree : List (Tree ω String)) a := by
  induction segments generalizing a with
  | nil =>
    cases h
    exact .nil
  | cons segment segments ih =>
    obtain ⟨b, c, hb, hc, rfl⟩ := exists_of_resolveParts_cons h
    refine .cons ?_ (ih hc)
    cases segment with
    | text content =>
      cases hb
      exact settled_text (String.ofList content)
    | reference index => exact settled_reference hb

/-! ### Trees of nodes -/

theorem ofNodes_append (registry : Registry ω ο) {ns ms : List Node} {ts us : List (Tree ω ο)}
    (hns : ofNodes registry ns = .ok ts) (hms : ofNodes registry ms = .ok us) :
    ofNodes registry (ns ++ ms) = .ok (ts ++ us) := by
  induction ns generalizing ts with
  | nil =>
    cases hns
    exact hms
  | cons n ns ih =>
    rw [ofNodes, Except.bind_eq_ok_iff] at hns
    obtain ⟨vs, hn, hns⟩ := hns
    obtain ⟨ws, hr, hns⟩ := Except.bind_eq_ok_iff.mp hns
    cases hns
    rw [List.cons_append, ofNodes, hn, ih hr]
    exact congrArg Except.ok (List.append_assoc vs ws us).symm

/-- The comment as it was before its ampersands were escaped. -/
theorem ofLiteral_comment (content : List Char) :
    (ofLiteral (.comment (String.ofList (escapeAmpersands content))) : Tree ω String) =
      .text (String.ofList (['<', '!', '-', '-'] ++ content ++ ['-', '-', '>'])) := by
  have hopen : '&' ∉ ['<', '!', '-', '-'] := by decide
  have hclose : '&' ∉ ['-', '-', '>'] := by decide
  have hm : (Node.outerHtml (.comment (String.ofList (escapeAmpersands content)))).toList =
      ['<', '!', '-', '-'] ++ (escapeAmpersands content ++ ['-', '-', '>']) := by
    simp [Node.outerHtml, Node.outer, Node.write]
  rw [ofLiteral, hm, restoreAmpersands_append_of_not_mem hopen,
    restoreAmpersands_escapeAmpersands_append, ← List.append_nil ['-', '-', '>'],
    restoreAmpersands_append_of_not_mem hclose, restoreAmpersands, List.append_nil,
    List.append_assoc]

theorem isComponentName_of_isName {name : List Char} (h : IsName name) :
    isComponentName (String.ofList name) = false := by
  cases name with
  | nil => exact h.elim
  | cons c cs => simp [isComponentName, isUppercase_of_isLower h.1]

theorem ofNodes_textNodes (registry : Registry ω ο) (cs : List Char) :
    ofNodes registry (Template.textNodes cs) =
      .ok ((decodeMarkers (collapse cs)).map Segment.tree) := by
  rw [Template.textNodes]
  split
  · rename_i h
    rw [h, show collapse [] = [] from rfl, decodeMarkers_nil]
    rfl
  · rw [ofNodes, ofNode, ofText, String.toList_ofList]
    exact congrArg Except.ok (List.append_nil _)

theorem SettledAll.of_singleton {t : Tree ω String} (h : SettledAll values [t] a) :
    Settled values t a := by
  cases h with
  | cons ht hnil =>
    cases hnil
    rwa [String.append_empty]

/-- A single node is its only tree, or a container of its trees. -/
theorem exists_ofRoot {registry : Registry ω ο} {c : Component ω ο}
    (hc : resolve registry containerTag = .ok c) {n : Node} {ts : List (Tree ω ο)}
    (hn : ofNode registry n = .ok ts) :
    ∃ root, ofRoot registry n = .ok root ∧ (ts = [root] ∨ root = .component c [] ts) := by
  by_cases h : ∃ t, ts = [t]
  · obtain ⟨t, rfl⟩ := h
    refine ⟨t, ?_, Or.inl rfl⟩
    rw [ofRoot, hn]
    rfl
  · refine ⟨_, ?_, Or.inr rfl⟩
    rw [ofRoot, hn, hc]
    rcases ts with _ | ⟨t, _ | ⟨u, ts⟩⟩
    · rfl
    · exact absurd ⟨t, rfl⟩ h
    · rfl

/-- A container around nodes is the component for it around their trees. -/
theorem ofElement_containerTag {registry : Registry ω ο} {c : Component ω ο}
    (hc : resolve registry containerTag = .ok c) (children : Except Error (List (Tree ω ο))) :
    ofElement registry containerTag [] children = children.map (.component c []) := by
  rw [ofElement, if_pos (by decide), hc]
  cases children <;> rfl

/-- The nodes in a container make one tree, which is their only tree or a container of their
trees. -/
theorem exists_ofForest {registry : Registry ω ο} {c : Component ω ο}
    (hc : resolve registry containerTag = .ok c) {ns : List Node} {ts : List (Tree ω ο)}
    (hts : ofNodes registry ns = .ok ts) :
    ∃ root, ofForest registry [.element containerTag [] ns] = .ok root ∧
      (ts = [root] ∨ root = .component c [] ts) := by
  have hmany : ofElement registry containerTag [] (ofNodes registry ns) =
      .ok (.component c [] ts) := by
    rw [ofElement_containerTag hc, hts]
    rfl
  rcases ns with _ | ⟨n, _ | ⟨m, ns⟩⟩
  · exact ⟨_, hmany, Or.inr rfl⟩
  · rw [ofNodes, Except.bind_eq_ok_iff] at hts
    obtain ⟨us, hn, hts⟩ := hts
    cases hts
    rw [List.append_nil]
    exact exists_ofRoot hc hn
  · exact ⟨_, hmany, Or.inr rfl⟩

/-- The tree of the nodes in a container renders as their trees do, if the container is not
replaced. -/
theorem exists_settled_ofForest_of_get? {registry : Registry ω String}
    (hr : registry.get? containerTag = none) {ns : List Node}
    (hts : ofNodes registry ns = .ok ts) (hs : SettledAll values ts a) :
    ∃ root : Tree ω String, ofForest registry [.element containerTag [] ns] = .ok root ∧
      Settled values root a := by
  have hc : resolve registry containerTag = .ok (.container ω String) := by
    rw [resolve, Registry.resolve?, hr]
    rfl
  obtain ⟨root, he, rfl | rfl⟩ := exists_ofForest hc hts
  · exact ⟨root, he, hs.of_singleton⟩
  · exact ⟨_, he, settled_container hs⟩

theorem exists_settled_ofForest {ns : List Node} (hts : ofNodes .empty ns = .ok ts)
    (hs : SettledAll values ts a) :
    ∃ root : Tree ω String, ofForest .empty [.element containerTag [] ns] = .ok root ∧
      Settled values root a := exists_settled_ofForest_of_get? rfl hts hs

end Tree

namespace Template

variable {values : List Value}

/-- The trees of the nodes of an element and of what follows it. -/
theorem ofNodes_element {registry : Registry ω ο} {name : List Char} (hname : IsName name)
    {attrs : List (List Char × List Piece)} {children next : Template} {k : Nat}
    {ts us : List (Tree ω ο)}
    (hts : Tree.ofNodes registry (children.nodes (k + (attributeValues attrs).length)) = .ok ts)
    (hus : Tree.ofNodes registry
      (next.nodes (k + (attributeValues attrs).length + children.values.length)) = .ok us) :
    Tree.ofNodes registry ((element name attrs children next).nodes k) =
      .ok (.element (String.ofList name)
        (.ofTexts (Markup.Builder.attributes (numberAttributes k attrs))) ts :: us) := by
  rw [nodes, Tree.ofNodes, Tree.ofNode, Tree.ofElement, Tree.isComponentName_of_isName hname, hts,
    hus]
  rfl

/-- The nodes of a template are trees that render to its output at once, with the values of its
slots from `k` on. -/
theorem exists_settledAll_nodes {t : Template} (h : t.WellFormed) {k : Nat}
    (hk : k + t.values.length ≤ Numeral.word64) (hv : t.values <+: values.drop k) :
    ∃ ts : List (Tree ω String), Tree.ofNodes .empty (t.nodes k) = .ok ts ∧
      Tree.SettledAll values ts (String.ofList t.output) := by
  induction t generalizing k with
  | nil => exact ⟨[], rfl, .nil⟩
  | text ps next ih =>
    obtain ⟨hps, _, hnext⟩ := h
    rw [Template.values, List.length_append] at hk
    rw [Template.values] at hv
    obtain ⟨us, hus, hs⟩ := ih hnext (by omega) (prefix_drop_of_append hv)
    have hresolve := Pieces.resolveParts_collapse_mark hps solid_lt (by omega)
      ((List.prefix_append _ _).trans hv)
    refine ⟨_, Tree.ofNodes_append .empty (Tree.ofNodes_textNodes .empty _) hus, ?_⟩
    rw [output, String.ofList_append]
    exact (Tree.settledAll_segments hresolve).append hs
  | comment content next ih =>
    obtain ⟨us, hus, hs⟩ := ih h.2 hk hv
    refine ⟨Tree.ofLiteral (.comment (String.ofList (escapeAmpersands content))) :: us, ?_, ?_⟩
    · rw [nodes, Tree.ofNodes, hus]
      rfl
    · rw [Tree.ofLiteral_comment, output]
      generalize ['<', '!', '-', '-'] ++ content ++ ['-', '-', '>'] = markup
      rw [String.ofList_append]
      exact .cons (Tree.settled_text _) hs
  | element name attrs children next ihc ihn =>
    obtain ⟨hname, hattrs, -, hchildren, hnext⟩ := h
    rw [Template.values, List.append_assoc, List.length_append, List.length_append] at hk
    rw [Template.values, List.append_assoc] at hv
    have hv' := prefix_drop_of_append hv
    obtain ⟨ts, hts, hc⟩ := ihc hchildren (by omega) ((List.prefix_append _ _).trans hv')
    obtain ⟨us, hus, hn⟩ := ihn hnext (by omega) (prefix_drop_of_append hv')
    have hresolve := resolveAttributes_ofTexts solid_quotes (fun a ha => (hattrs a ha).2)
      (by omega) ((List.prefix_append _ _).trans hv)
    refine ⟨_, ofNodes_element hname hts hus, ?_⟩
    rw [output, String.ofList_append, ← elementMarkup_filledAttributes]
    exact .cons (Tree.settled_element _ hresolve hc) hn

/-- **Compiling and rendering is exact.** The fragments of a well-formed template, rendered with
values of which the first ones are those of its slots, give its output at once, without the blanks
at its ends. Slots are numbered by machine words, as lists in memory are. -/
theorem renderFragments_fragments {t : Template} (h : t.WellFormed)
    (hk : t.values.length ≤ Numeral.word64) (hv : t.values <+: values) :
    (renderFragments .text t.fragments values : Attempt ω (Rendered ω String)) =
      .succeed (.ready (String.ofList t.trimmed.output)) := by
  obtain ⟨ts, hts, hs⟩ := exists_settledAll_nodes (ω := ω) (k := 0) h.trimmed
    (by rwa [values_trimmed, Nat.zero_add]) (by rwa [values_trimmed])
  obtain ⟨root, hr, hroot⟩ := Tree.exists_settled_ofForest hts hs
  have hcompile : Tree.compile .empty (Fragments.join t.fragments) = .ok root.fold := by
    rw [join_fragments, Tree.compile, Tree.ofMarkup, parse_wrap h]
    exact congrArg (Except.map Tree.fold) hr
  rw [renderFragments, hcompile]
  exact (Tree.render_fold_of_rounds root hroot.1).trans hroot.2

/-- A page with blanks and an ampersand, brackets beside a slot, and a void element. -/
def page : Template :=
  text [.literal "  so ".toList] <|
    element "p".toList [("id".toList, [.literal " a  b ".toList, .slot (.str "x")])]
      (text [.literal "1 &amp; \n [[[".toList, .slot (.int 3)] <|
        element "br".toList [] (text [.literal " ".toList] nil) <|
          comment " a & b ".toList nil) <|
    text [.slot .null, .literal "\n".toList] nil

theorem wellFormed_page : page.WellFormed := by
  have hname : ∀ name ∈ ["p".toList, "id".toList, "br".toList], IsName name := by simp [IsName]
  have hid : ∀ attr ∈ [("id".toList, [.literal " a  b ".toList, .slot (.str "x")])],
      IsName attr.1 ∧ Pieces.WellFormed ['<', '"'] attr.2 :=
    List.forall_mem_singleton.mpr ⟨hname _ (by simp), Pieces.wellFormed_of_avoids trivial rfl⟩
  have hblank : (text [.literal " ".toList] nil).WellFormed :=
    ⟨Pieces.wellFormed_of_avoids trivial rfl, rfl, trivial⟩
  have hend : (text [.slot .null, .literal "\n".toList] nil).WellFormed :=
    ⟨Pieces.wellFormed_of_avoids trivial rfl, rfl, trivial⟩
  have hcomment : (comment " a & b ".toList nil).WellFormed := ⟨by decide, trivial⟩
  have hbr : (element "br".toList [] (text [.literal " ".toList] nil)
      (comment " a & b ".toList nil)).WellFormed :=
    ⟨hname _ (by simp), List.forall_mem_nil _, List.nodup_nil, hblank, hcomment⟩
  exact ⟨Pieces.wellFormed_of_avoids trivial rfl, rfl, hname _ (by simp), hid,
    by simp, ⟨Pieces.wellFormed_of_avoids trivial rfl, rfl, hbr⟩, hend⟩

/-- Only the blanks and the void element are changed, and the fourth value is not used. -/
theorem renderFragments_page :
    page.WellFormed ∧ page.values.length ≤ Numeral.word64 ∧
      page.values <+: [.str "x", .int 3, .null, .bool true] ∧
      page.fragments =
        ["  so <p id=\" a  b ", "\">1 &amp; \n [[[", "<br> </br><!-- a & b --></p>", "\n"] ∧
      (renderFragments .text page.fragments [.str "x", .int 3, .null, .bool true] :
          Attempt Unit (Rendered Unit String)) =
        .succeed (.ready "so <p id=\" a  b x\">1 &amp; [[[3<br><!-- a & b --></p>") := by
  have hv : page.values <+: [.str "x", .int 3, .null, .bool true] := ⟨[.bool true], rfl⟩
  have hl : page.values.length ≤ Numeral.word64 := by decide
  have ho : String.ofList page.trimmed.output =
      "so <p id=\" a  b x\">1 &amp; [[[3<br><!-- a & b --></p>" := by decide +kernel
  refine ⟨wellFormed_page, hl, hv, by decide +kernel, ?_⟩
  rw [renderFragments_fragments wellFormed_page hl hv, ho]

end Template

end MarkupTemplate
