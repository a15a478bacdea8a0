import MarkupTemplate.Proofs.Rendering.Exactness
import MarkupTemplate.Proofs.Rendering.NodeFolding
import MarkupTemplate.Proofs.Template.Plain

/-!
# The two backends agree

A plain template, rendered to nodes, has the markup that it renders to as text. The text backend
concatenates what stands in the template, and the node backend reads it, sets attributes and puts
nodes together, so the two are compared tree by tree before folding: the nodes of a tree are
written as its text. Folding then shows in neither.

## Main definitions

* `MarkupTemplate.Value.IsPlain` — values whose text is written as it is.
* `MarkupTemplate.Tree.Builds` — siblings whose nodes have a given markup.

## Main results

* `MarkupTemplate.Template.exists_builds_nodes` — the trees of a tidy template.
* `MarkupTemplate.Template.renderFragments_agree` — fragments render alike in both backends.
-/

namespace MarkupTemplate

open Dom Markup Text

variable {ω ο : Type} {values : List Value}

/-- A value that is no node, and whose text has no character that is escaped. -/
def Value.IsPlain (v : Value) : Prop := v.node? = none ∧ ∀ c ∈ markupChars, c ∉ v.text.toList

instance (v : Value) : Decidable v.IsPlain :=
  have : Decidable (∀ c ∈ markupChars, c ∉ v.text.toList) := List.decidableBAll _ _
  inferInstanceAs (Decidable (_ ∧ _))

/-! ### Texts without escapes -/

theorem flatMap_escapeChar (quotes : Bool) {cs : List Char} (h : ∀ c ∈ markupChars, c ∉ cs) :
    cs.flatMap (escapeChar quotes) = cs := by
  induction cs with
  | nil => rfl
  | cons c cs ih =>
    have hne {d : Char} (hd : d ∈ markupChars) : c ≠ d := fun he => h d hd (he ▸ List.mem_cons_self)
    have hc : escapeChar quotes c = [c] := by
      have hq : ¬ (c = '"' ∧ quotes = true) := fun hq => hne (by decide) hq.1
      rw [escapeChar, if_neg (hne (by decide)), if_neg (hne (by decide)), if_neg (hne (by decide)),
        if_neg hq]
    rw [List.flatMap_cons, hc, ih fun d hd hm => h d hd (List.mem_cons_of_mem c hm)]
    rfl

theorem escapeText_self {s : String} (h : ∀ c ∈ markupChars, c ∉ s.toList) : escapeText s = s := by
  rw [escapeText, flatMap_escapeChar false h, String.ofList_toList]

/-- A start tag with values that are not escaped. -/
theorem startTag_eq_startMarkup {tag : String} {attrs : List (String × String)}
    (h : ∀ attr ∈ attrs, ∀ c ∈ markupChars, c ∉ attr.2.toList) :
    startTag tag attrs = startMarkup tag attrs := by
  have hm : attrs.map writeAttribute =
      attrs.map fun attr => " " ++ attr.1 ++ "=\"" ++ attr.2 ++ "\"" := by
    refine List.map_congr_left fun attr ha => ?_
    rw [writeAttribute, escapeAttribute, flatMap_escapeChar true (h attr ha), String.ofList_toList]
  rw [startTag, hm, startMarkup]

/-! ### Trees whose nodes are known -/

namespace Tree

variable (values) in
/-- Siblings whose nodes are there at once and have this markup, and that are folded faithfully. -/
structure Builds (ts : List (Tree ω Node)) (markup : String) : Prop where
  prompt : PromptAll ts
  legible : LegibleAll ts
  nodes : ∃ ns, nodesAll values ts = pure ns ∧ ∀ depth, Node.writeAll .plain depth ns = markup

theorem legibleAll_append {ts us : List (Tree ω ο)} (hts : LegibleAll ts) (hus : LegibleAll us)
    (h : ¬ StartsWords us) : LegibleAll (ts ++ us) := by
  induction ts with
  | nil => exact hus
  | cons t ts ih =>
    refine ⟨hts.1, fun ht => ?_, ih hts.2.2⟩
    cases ts with
    | nil => exact h
    | cons t' ts => exact hts.2.1 ht

theorem nodesAll_append (ts us : List (Tree ω Node)) :
    nodesAll values (ts ++ us) = do
      let ns ← nodesAll values ts
      let ms ← nodesAll values us
      return ns ++ ms := by
  induction ts with
  | nil =>
    rw [List.nil_append, nodesAll, pure_bind]
    exact (bind_pure _).symm
  | cons t ts ih =>
    simp only [List.cons_append, nodesAll, ih, bind_assoc, pure_bind, List.append_assoc]

@[simp] theorem nodesAll_singleton (t : Tree ω Node) : nodesAll values [t] = t.nodes values := by
  simp [nodesAll]

variable {ts us : List (Tree ω Node)} {a b : String}

theorem builds_nil : Builds values ([] : List (Tree ω Node)) "" :=
  ⟨trivial, trivial, [], rfl, fun _ => rfl⟩

theorem Builds.append (hts : Builds values ts a) (hus : Builds values us b)
    (h : ¬ StartsWords us) : Builds values (ts ++ us) (a ++ b) where
  prompt := promptAll_append hts.prompt hus.prompt
  legible := legibleAll_append hts.legible hus.legible h
  nodes := by
    obtain ⟨ns, hns, hn⟩ := hts.nodes
    obtain ⟨ms, hms, hm⟩ := hus.nodes
    refine ⟨ns ++ ms, ?_, fun depth => ?_⟩
    · rw [nodesAll_append, hns, hms, pure_bind, pure_bind]
    · rw [Node.writeAll_append, hn, hm]

theorem Builds.cons {t : Tree ω Node} (ht : Builds values [t] a) (hts : Builds values ts b)
    (h : t.IsWords → ¬ StartsWords ts) : Builds values (t :: ts) (a ++ b) where
  prompt := ⟨ht.prompt.1, hts.prompt⟩
  legible := ⟨ht.legible.1, h, hts.legible⟩
  nodes := by
    obtain ⟨ns, hns, hn⟩ := ht.nodes
    obtain ⟨ms, hms, hm⟩ := hts.nodes
    refine ⟨ns ++ ms, ?_, fun depth => ?_⟩
    · rw [← List.singleton_append, nodesAll_append, hns, hms, pure_bind, pure_bind]
    · rw [Node.writeAll_append, hn, hm]

/-- A single tree with the one node that it makes. -/
theorem builds_singleton {t : Tree ω Node} {n : Node} (hp : t.Prompt) (hl : t.Legible)
    (hn : t.nodes values = pure [n]) (hw : ∀ depth, n.write .plain depth = a) :
    Builds values [t] a where
  prompt := ⟨hp, trivial⟩
  legible := ⟨hl, fun _ => id, trivial⟩
  nodes := by
    refine ⟨[n], ?_, fun depth => ?_⟩
    · rw [nodesAll, hn]
      rfl
    · rw [Node.writeAll, hw, Node.writeAll, String.append_empty]

/-- A literal without markup is a text. -/
theorem builds_text {content : List Char} (hne : content ≠ [])
    (h : ∀ c ∈ '\uFEFF' :: markupChars, c ∉ content) :
    Builds values [(.text (String.ofList content) : Tree ω Node)] (String.ofList content) := by
  have hne' : String.ofList content ≠ "" := fun he => hne (String.ofList_eq_empty_iff.mp he)
  have hw : Words (String.ofList content).toList content := by
    rw [String.toList_ofList]
    refine words_self fun c hc => ?_
    have hlt : c ≠ '<' := fun he => h '<' (by decide) (he ▸ hc)
    have hamp : c ≠ '&' := fun he => h '&' (by decide) (he ▸ hc)
    simp [isText, hlt, hamp]
  have hb : (String.ofList content).toList.head? ≠ some '\uFEFF' := by
    rw [String.toList_ofList]
    exact fun he => h _ List.mem_cons_self (List.mem_of_mem_head? he)
  refine builds_singleton trivial (Or.inl ⟨hne', hb, _, hw⟩)
    (nodes_text (describes_words hw hne' hb)) fun depth => ?_
  rw [Node.write]
  exact escapeText_self fun c hc => by
    rw [String.toList_ofList]
    exact h c (List.mem_cons_of_mem _ hc)

/-- A slot is filled with a text. -/
theorem builds_reference (hv : ∀ v ∈ values, v.IsPlain) {index : Nat}
    (h : (Part.reference index).resolve values = .ok a) :
    Builds values [(.reference index : Tree ω Node)] a := by
  obtain ⟨v, hs, rfl⟩ := Except.map_eq_ok_iff.mp h
  have hm : v ∈ values := by
    rw [substitution] at hs
    split at hs
    · rename_i w hw
      cases hs
      exact List.mem_of_getElem? hw
    · cases hs
  obtain ⟨hnode, hplain⟩ := hv v hm
  have hn : Backend.nodeOfValue v = .text v.text := by
    cases v with
    | node n => cases hnode
    | _ => rfl
  refine builds_singleton (n := .text v.text) trivial trivial ?_ fun depth => ?_
  · have hr : (reference index : Tree ω Node).nodes values =
        pure (Backend.nodeOfValue v).flatten := by
      rw [nodes, render, hs]
      rfl
    rw [hr, hn]
    rfl
  · rw [Node.write]
    exact escapeText_self hplain

/-- Decoded trees have the markup that decoded pieces resolve to. -/
theorem builds_segments (hv : ∀ v ∈ values, v.IsPlain) {segments : List Segment}
    (hs : Segment.Apart segments)
    (hp : ∀ content, .text content ∈ segments →
      content ≠ [] ∧ ∀ c ∈ '\uFEFF' :: markupChars, c ∉ content)
    (h : resolveParts values (segments.map Segment.part) = .ok a) :
    Builds values (segments.map Segment.tree : List (Tree ω Node)) a := by
  induction segments generalizing a with
  | nil =>
    cases h
    exact builds_nil
  | cons segment segments ih =>
    obtain ⟨b, c, hb, hc, rfl⟩ := exists_of_resolveParts_cons h
    have hp' := fun content hm => hp content (List.mem_cons_of_mem segment hm)
    have hs' : Segment.Apart segments := by
      rcases segment, segments with ⟨_ | _, _ | ⟨_ | _, _⟩⟩
      · trivial
      · exact hs.elim
      all_goals exact hs
    have hrest := ih hs' hp' hc
    cases segment with
    | reference index => exact (builds_reference hv hb).cons hrest nofun
    | text content =>
      cases hb
      obtain ⟨hne, hplain⟩ := hp content List.mem_cons_self
      refine (builds_text hne hplain).cons hrest fun _ => ?_
      rcases segments with _ | ⟨_ | _, _⟩
      · exact id
      · exact hs.elim
      · exact id

/-- An element is built with the attributes that its values resolve to. -/
theorem builds_element {tag : String} {attrs : Attributes} {texts : List (String × String)}
    (hl : LegibleTag tag attrs) (hraw : isRawText tag = false) (hvoid : isVoid tag = true → ts = [])
    (ha : resolveAttributes values attrs = .ok texts) (hnodup : (texts.map Prod.fst).Nodup)
    (hplain : ∀ attr ∈ texts, ∀ c ∈ markupChars, c ∉ attr.2.toList) (h : Builds values ts a) :
    Builds values [.element tag attrs ts] (elementMarkup tag texts a) := by
  obtain ⟨ns, hns, hn⟩ := h.nodes
  refine builds_singleton h.prompt ⟨fun _ => ⟨hl, hvoid⟩, h.legible⟩
    (n := .element tag texts ns) ?_ fun depth => ?_
  · rw [nodes_element h.prompt, ha, hns]
    exact congrArg (fun attrs => pure [Node.element tag attrs ns])
      (KeyedList.ofPairs_of_nodup hnodup)
  · have hbreak (k : Nat) : Layout.plain.lineBreak k = "" := rfl
    rw [Node.write, hbreak, ite_self, ite_self, String.empty_append, String.append_empty,
      startTag_eq_startMarkup hplain, hn, hraw, elementMarkup]
    cases hv : isVoid tag with
    | true =>
      obtain rfl := hvoid hv
      obtain rfl : [] = ns := Except.ok.inj (congrArg Attempt.result hns)
      obtain rfl : "" = a := hn depth
      rfl
    | false => simp [endTag, String.append_assoc]

/-- The container has the markup of its content. -/
theorem builds_container (h : Builds values ts a) :
    Builds values [.component (.container ω Node) [] ts] a where
  prompt := ⟨⟨Component.prompt_container, h.prompt⟩, trivial⟩
  legible := ⟨h.legible, fun _ => id, trivial⟩
  nodes := by
    obtain ⟨ns, hns, hn⟩ := h.nodes
    have hflat : Node.flattenAll ns = ns := flattenAll_of_nodesAll (by rw [hns]; rfl)
    refine ⟨ns, ?_, hn⟩
    rw [nodesAll_singleton, nodes_component h.prompt, hns]
    exact congrArg pure hflat

/-- Folded, a tree is rendered at once to a node of its markup. -/
theorem Builds.exists_render_fold {t : Tree ω Node} (h : Builds values [t] a) :
    ∃ n, t.fold.render .dom values = .succeed (.ready n) ∧ n.outerHtml = a := by
  obtain ⟨ns, hns, hn⟩ := h.nodes
  have hp := prompt_render values t.fold (prompt_fold t h.prompt.1)
  have hnodes : t.fold.nodes values = t.nodes values := (nodes_fold t h.prompt.1 h.legible.1).2
  rw [nodesAll_singleton] at hns
  rw [hns, Tree.nodes] at hnodes
  rcases hx : t.fold.render .dom values with ⟨events, error | r⟩
  · rw [hx] at hnodes
    cases congrArg Attempt.result hnodes
  · rw [hx] at hnodes hp
    obtain ⟨n, rfl⟩ := hp r rfl
    obtain rfl : events = [] := (List.append_nil events).symm.trans (congrArg Attempt.events hnodes)
    have hflat : n.flatten = ns := Except.ok.inj (congrArg Attempt.result hnodes)
    refine ⟨n, rfl, ?_⟩
    rw [Node.outerHtml, Node.outer, ← Node.writeAll_flatten, hflat, hn]

end Tree

/-! ### Attributes -/

/-- The values of pieces have none of the excluded characters, if those of the slots do not. -/
theorem Pieces.not_mem_output {excluded : List Char} {ps : List Piece}
    (h : WellFormed excluded ps) {c : Char} (hc : c ∈ excluded)
    (hv : ∀ v ∈ Pieces.values ps, c ∉ v.text.toList) : c ∉ output ps := by
  have hp := h.plain
  clear h
  induction ps with
  | nil => exact List.not_mem_nil
  | cons p ps ih =>
    have hp' := fun cs hcs => hp cs (List.mem_cons_of_mem p hcs)
    cases p with
    | literal cs =>
      rw [output, List.mem_append, not_or]
      exact ⟨hp cs List.mem_cons_self c hc, ih hv hp'⟩
    | slot v =>
      rw [output, List.mem_append, not_or]
      exact ⟨hv v List.mem_cons_self, ih (fun w hw => hv w (List.mem_cons_of_mem v hw)) hp'⟩

/-- A value that is a single literal has no characters of its own but blanks. -/
theorem AttrValue.mem_of_ofText_eq_text {value s : String}
    (h : AttrValue.ofText value = .single (.text s)) {c : Char} (hc : c ∈ s.toList)
    (hb : isBlank c = false) : c ∈ value.toList := by
  rw [AttrValue.ofText] at h
  split at h
  · cases h
    cases hc
  · rename_i hne
    have hne' : value.toList ≠ [] := fun he => hne (String.toList_eq_nil_iff.mp he)
    split at h
    · rename_i part hparts
      cases h
      obtain ⟨segment, hm, hs⟩ := List.map_eq_singleton_iff.mp hparts
      cases segment with
      | reference index => cases hs
      | text content =>
        cases hs
        rw [String.toList_ofList] at hc
        have hmem := (mem_decodeMarkers (hm ▸ List.mem_cons_self)).2 hc
        rw [collapseEdges_eq hne'] at hmem
        have hend := tame_collapseStart.atEnd fun _ hm => hm.atEnd_collapseStart
        exact tame_collapseStart.mem _ _ (hend.mem _ _ hmem hb) hb
    · cases h

namespace Template

variable {attrs : List (List Char × List Piece)}

/-- The tag of a tidy element is legible. -/
theorem legibleTag_ofTexts {name : List Char} (hname : IsName name)
    (hattrs : ∀ attr ∈ attrs, IsName attr.1 ∧ Pieces.WellFormed reservedChars attr.2)
    (hnodup : (attrs.map Prod.fst).Nodup) (k : Nat) :
    LegibleTag (String.ofList name)
      (.ofTexts (Builder.attributes (numberAttributes k attrs))) where
  name := by
    rw [String.toList_ofList]
    exact hname.isTagName
  names attr ha := by
    obtain ⟨_, hw, rfl⟩ := List.mem_map.mp ha
    obtain ⟨raw, hr, rfl⟩ := List.mem_map.mp hw
    obtain ⟨ps, j, hm, -⟩ := mem_numberAttributes hr
    rw [String.toList_ofList]
    exact (hattrs _ hm).1.isTagName
  nodup := by
    have he : (Attributes.ofTexts (Builder.attributes (numberAttributes k attrs))).map Prod.fst =
        (attrs.map Prod.fst).map String.ofList := by
      rw [← map_fst_numberAttributes k]
      simp [Attributes.ofTexts, Builder.attributes]
    rw [he]
    exact nodup_map_ofList hnodup
  values attr ha s hs := by
    obtain ⟨_, hw, rfl⟩ := List.mem_map.mp ha
    obtain ⟨raw, hr, rfl⟩ := List.mem_map.mp hw
    obtain ⟨ps, j, hm, he⟩ := mem_numberAttributes hr
    have hfree {c : Char} (hc : c ∈ reservedChars) (hb : c ≠ '[' ∧ c ≠ ']')
        (hd : isDigit c = false) : c ∉ s.toList := fun hmem => by
      have hv := AttrValue.mem_of_ofText_eq_text hs hmem (solid_reservedChars c hc)
      rw [String.toList_ofList, he] at hv
      exact Pieces.not_mem_mark (hattrs _ hm).2 hc hb hd j hv
    exact ⟨hfree (by decide) (by decide) (by decide), hfree (by decide) (by decide) (by decide)⟩

/-- The filled attributes of a tidy element are written as they are. -/
theorem not_mem_filledAttributes
    (hattrs : ∀ attr ∈ attrs, Pieces.WellFormed reservedChars attr.2)
    (hv : ∀ v ∈ attributeValues attrs, v.IsPlain) :
    ∀ attr ∈ filledAttributes attrs, ∀ c ∈ markupChars, c ∉ attr.2.toList := by
  intro attr ha c hc
  obtain ⟨⟨name, ps⟩, hm, rfl⟩ := List.mem_map.mp ha
  have hreserved : c ∈ reservedChars := List.mem_cons_of_mem _ (List.mem_cons_of_mem _ hc)
  rw [String.toList_ofList]
  refine Pieces.not_mem_output (wellFormed_normalValue (hattrs _ hm) solid_reservedChars) hreserved
    fun v hmem => ?_
  rw [values_normalValue] at hmem
  exact (hv v (List.mem_flatMap.mpr ⟨_, hm, hmem⟩)).2 c hc

/-! ### Templates -/

theorem builds_text_pieces {ps : List Piece} (hps : Pieces.WellFormed reservedChars ps) {k : Nat}
    (hk : k + (Pieces.values ps).length ≤ Numeral.word64)
    (hv : Pieces.values ps <+: values.drop k) (hplain : ∀ v ∈ values, v.IsPlain) :
    Tree.Builds values
      ((decodeMarkers (collapse (Pieces.mark k ps))).map Segment.tree : List (Tree ω Node))
      (String.ofList (Pieces.output (Pieces.mapLiterals collapse ps))) := by
  refine Tree.builds_segments hplain (apart_decodeMarkers _) (fun content hm => ?_)
    (Pieces.resolveParts_collapse_mark hps solid_reservedChars hk hv)
  obtain ⟨hne, hsub⟩ := mem_decodeMarkers hm
  refine ⟨hne, fun c hc hmem => ?_⟩
  have hreserved : c ∈ reservedChars := List.mem_cons_of_mem _ hc
  have hfree : ∀ d ∈ '\uFEFF' :: markupChars, (d ≠ '[' ∧ d ≠ ']') ∧ isDigit d = false := by
    simp [markupChars, isDigit]
  exact Pieces.not_mem_mark hps hreserved (hfree c hc).1 (hfree c hc).2 k
    (tame_collapse.mem _ c (hsub hmem) (solid_reservedChars c hreserved))

/-- The nodes of a tidy template are trees whose nodes are written as its output, with the values
of its slots from `k` on. -/
theorem exists_builds_nodes {t : Template} (h : t.Tidy) {k : Nat}
    (hk : k + t.values.length ≤ Numeral.word64) (hv : t.values <+: values.drop k)
    (hplain : ∀ v ∈ values, v.IsPlain) :
    ∃ ts : List (Tree ω Node), Tree.ofNodes .empty (t.nodes k) = .ok ts ∧
      Tree.Builds values ts (String.ofList t.output) ∧
      (t.startsText = false → ¬ Tree.StartsWords ts) := by
  induction t generalizing k with
  | nil => exact ⟨[], rfl, Tree.builds_nil, fun _ => id⟩
  | text ps next ih =>
    obtain ⟨hps, hstart, hnext⟩ := h
    rw [Template.values, List.length_append] at hk
    rw [Template.values] at hv
    obtain ⟨us, hus, hb, hw⟩ := ih hnext (by omega) (prefix_drop_of_append hv)
    refine ⟨_, Tree.ofNodes_append .empty (Tree.ofNodes_textNodes .empty _) hus, ?_,
      fun hs => by cases hs⟩
    rw [output, String.ofList_append]
    exact (builds_text_pieces hps (by omega) ((List.prefix_append _ _).trans hv) hplain).append hb
      (hw hstart)
  | comment content next ih => exact h.elim
  | element name attrs children next ihc ihn =>
    obtain ⟨hname, hraw, hvoid, hattrs, hnodup, hchildren, hnext⟩ := h
    rw [Template.values, List.append_assoc, List.length_append, List.length_append] at hk
    rw [Template.values, List.append_assoc] at hv
    have hv' := prefix_drop_of_append hv
    obtain ⟨ts, hts, hc, -⟩ := ihc hchildren (by omega) ((List.prefix_append _ _).trans hv')
    obtain ⟨us, hus, hn, -⟩ := ihn hnext (by omega) (prefix_drop_of_append hv')
    have hresolve := resolveAttributes_ofTexts solid_reservedChars (fun a ha => (hattrs a ha).2)
      (by omega) ((List.prefix_append _ _).trans hv)
    have hslots : ∀ v ∈ attributeValues attrs, v.IsPlain := fun v hm =>
      hplain v (List.mem_of_mem_drop (hv.subset (List.mem_append_left _ hm)))
    have hkeys : (filledAttributes attrs).map Prod.fst =
        (attrs.map Prod.fst).map String.ofList := by simp [filledAttributes]
    have helem := Tree.builds_element (legibleTag_ofTexts hname hattrs hnodup k) hraw
      (fun hvd => by rw [hvoid hvd] at hts; exact (Except.ok.inj hts).symm) hresolve
      (by rw [hkeys]; exact nodup_map_ofList hnodup)
      (not_mem_filledAttributes (fun a ha => (hattrs a ha).2) hslots) hc
    refine ⟨_, ofNodes_element hname hts hus, ?_, fun _ => id⟩
    rw [output, String.ofList_append, ← elementMarkup_filledAttributes]
    exact helem.cons hn fun hw => hw.elim

section Compile

variable {t : Template} {m : Holed}

/-- The compiled tree of fragments is the folded tree of the nodes of the template. -/
theorem exists_compile_fragments (h : t.WellFormed) (hm : t.WrittenAs m) {ts : List (Tree ω ο)}
    (hts : Tree.ofNodes .empty (t.trimmed.nodes 0) = .ok ts) :
    ∃ root, Tree.compile .empty (Fragments.join m.fragments) = .ok root.fold ∧
      (ts = [root] ∨ root = .component (.container ω ο) [] ts) := by
  obtain ⟨root, hr, hroot⟩ := Tree.exists_ofForest rfl hts
  refine ⟨root, ?_, hroot⟩
  rw [Holed.join_fragments, Tree.compile, Tree.ofMarkup, hm.parse_wrap h]
  exact congrArg (Except.map Tree.fold) hr

/-- Fragments are compiled to a tree that is their output as text. -/
theorem exists_settled_compile (h : t.WellFormed) (hm : t.WrittenAs m)
    (hk : t.values.length ≤ Numeral.word64) (hv : t.values <+: values) :
    ∃ root : Tree ω String, Tree.compile .empty (Fragments.join m.fragments) = .ok root.fold ∧
      Tree.Settled values root (String.ofList t.trimmed.output) := by
  obtain ⟨ts, hts, hs⟩ := exists_settledAll_nodes (ω := ω) (k := 0) h.trimmed
    (by rwa [values_trimmed, Nat.zero_add]) (by rwa [values_trimmed])
  obtain ⟨root, hcompile, rfl | rfl⟩ := exists_compile_fragments h hm hts
  · exact ⟨root, hcompile, hs.of_singleton⟩
  · exact ⟨_, hcompile, Tree.settled_container hs⟩

/-- Fragments are compiled to a tree whose nodes have their output as markup. -/
theorem exists_builds_compile (h : t.Tidy) (hm : t.WrittenAs m)
    (hk : t.values.length ≤ Numeral.word64) (hv : t.values <+: values)
    (hplain : ∀ v ∈ values, v.IsPlain) :
    ∃ root : Tree ω Node, Tree.compile .empty (Fragments.join m.fragments) = .ok root.fold ∧
      Tree.Builds values [root] (String.ofList t.trimmed.output) := by
  obtain ⟨ts, hts, hb, -⟩ := exists_builds_nodes (ω := ω) (k := 0) h.trimmed
    (by rwa [values_trimmed, Nat.zero_add]) (by rwa [values_trimmed]) hplain
  obtain ⟨root, hcompile, rfl | rfl⟩ := exists_compile_fragments h.wellFormed hm hts
  · exact ⟨root, hcompile, hb⟩
  · exact ⟨_, hcompile, Tree.builds_container hb⟩

end Compile

/-- **The two backends agree** on plain templates, whose literals and texts may follow each other
in any way, and whose elements without children may be written as one tag. With plain values, of
which the first ones are those of the slots, the fragments are rendered at once in both backends,
and the node is written as the text, which is the output of the template without the blanks at its
ends. Slots are numbered by machine words, as lists in memory are. -/
theorem renderFragments_agree {t : Template} (h : t.Plain) {m : Holed} (hm : t.WrittenAs m)
    (hk : t.values.length ≤ Numeral.word64) (hv : t.values <+: values)
    (hplain : ∀ v ∈ values, v.IsPlain) :
    ∃ (n : Node) (s : String),
      (renderFragments .dom m.fragments values : Attempt ω (Rendered ω Node)) =
        .succeed (.ready n) ∧
      (renderFragments .text m.fragments values : Attempt ω (Rendered ω String)) =
        .succeed (.ready s) ∧
      n.outerHtml = s ∧ s = String.ofList t.merge.trimmed.output := by
  have ht := h.tidy_merge
  have hm' := hm.merge
  rw [← values_merge] at hk hv
  obtain ⟨textRoot, htext, hsettled⟩ := exists_settled_compile (ω := ω) ht.wellFormed hm' hk hv
  obtain ⟨domRoot, hdom, hb⟩ := exists_builds_compile (ω := ω) ht hm' hk hv hplain
  obtain ⟨n, hn, hmarkup⟩ := hb.exists_render_fold
  refine ⟨n, _, ?_, ?_, hmarkup, rfl⟩
  · rw [renderFragments, hdom]
    exact hn
  · rw [renderFragments, htext]
    exact (Tree.render_fold_of_rounds textRoot hsettled.1).trans hsettled.2

/-- Literals in a row, slots in a value and in a text, a void element and blanks. -/
def card : Template :=
  element "a".toList [("href".toList, [.literal " /x".toList, .literal "/".toList, .slot (.int 7)]),
      ("id".toList, [])]
    (text [.literal "so ".toList, .literal "\n so".toList] <|
      text [.slot (.str "!")] <| element "br".toList [] nil nil) <|
  text [.literal " end ".toList] nil

theorem plain_card : card.Plain := by
  have hname : ∀ name ∈ ["a".toList, "href".toList, "id".toList, "br".toList], IsName name := by
    simp [IsName]
  have hattrs : ∀ attr ∈ [("href".toList, [.literal " /x".toList, .literal "/".toList,
      .slot (.int 7)]), ("id".toList, [])],
      IsName attr.1 ∧ ∀ p ∈ attr.2, Piece.avoids reservedChars p = true :=
    List.forall_mem_cons.mpr ⟨⟨hname _ (by simp), List.all_eq_true.mp rfl⟩,
      List.forall_mem_singleton.mpr ⟨hname _ (by simp), List.forall_mem_nil _⟩⟩
  have hbr : (element "br".toList [] nil nil).Plain :=
    ⟨hname _ (by simp), by decide, fun _ => rfl, List.forall_mem_nil _, List.nodup_nil, trivial,
      trivial⟩
  exact ⟨hname _ (by simp), by decide, fun hv => absurd hv (by decide), hattrs, by decide,
    ⟨List.all_eq_true.mp rfl, List.all_eq_true.mp rfl, hbr⟩, List.all_eq_true.mp rfl, trivial⟩

/-- The void element is one tag, and the third value is not used. -/
theorem renderFragments_card :
    ∃ m, card.Plain ∧ card.WrittenAs m ∧ card.values.length ≤ Numeral.word64 ∧
      card.values <+: [.int 7, .str "!", .null] ∧
      (∀ v ∈ [.int 7, .str "!", .null], Value.IsPlain v) ∧
      m.fragments = ["<a href=\" /x/", "\" id=\"\">so \n so", "<br/></a> end "] ∧
      ∃ (n : Node) (s : String),
        (renderFragments .dom m.fragments [.int 7, .str "!", .null] :
            Attempt Unit (Rendered Unit Node)) = .succeed (.ready n) ∧
        (renderFragments .text m.fragments [.int 7, .str "!", .null] :
            Attempt Unit (Rendered Unit String)) = .succeed (.ready s) ∧
        n.outerHtml = s ∧ s = "<a href=\" /x/7\" id=\"\">so so!<br></a> end" := by
  have hm : card.WrittenAs _ := .element (.text (.text (.emptyTag .nil))) (.text .nil)
  have hl : card.values.length ≤ Numeral.word64 := by decide
  have hv : card.values <+: [.int 7, .str "!", .null] := ⟨[.null], rfl⟩
  have hp : ∀ v ∈ [.int 7, .str "!", .null], Value.IsPlain v := by decide
  have ho : String.ofList card.merge.trimmed.output =
      "<a href=\" /x/7\" id=\"\">so so!<br></a> end" := by decide +kernel
  obtain ⟨n, s, hdom, htext, hmarkup, hs⟩ :=
    renderFragments_agree (ω := Unit) plain_card hm hl hv hp
  exact ⟨_, plain_card, hm, hl, hv, hp, by decide +kernel, n, s, hdom, htext, hmarkup,
    hs.trans ho⟩

end Template

end MarkupTemplate
