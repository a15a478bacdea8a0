import MarkupTemplate.Proofs.Template.Ampersands
import MarkupTemplate.Proofs.Template.Edges

/-!
# Written templates are read as nodes

The markup of a template, with markers for slots and escaped ampersands, is read as one node for
each of its trees, in their order. Texts and attribute values have the markers and the ampersands
that were written, and comments have escaped ampersands.

## Main definitions

* `MarkupTemplate.Template.nodes` — the nodes of a template.

## Main results

* `MarkupTemplate.Template.WrittenAs.reads_mark` — the markup is read as these nodes.
* `MarkupTemplate.Template.WrittenAs.parse_wrap` — reading inside a container.
-/

namespace MarkupTemplate

open Dom Markup Text

/-! ### Names -/

theorem isNameChar_of_isLower_or_isDigit {c : Char} (h : c.isLower = true ∨ c.isDigit = true) :
    isNameChar c = true := by
  show (c.isUpper || c.isLower || c.isDigit || c == '-') = true
  rcases h with h | h <;> simp [h]

theorem IsName.isTagName {name : List Char} (h : IsName name) : IsTagName name := by
  cases name with
  | nil => exact h.elim
  | cons c cs =>
    refine ⟨List.cons_ne_nil c cs, List.forall_mem_cons.mpr ⟨?_, fun d hd => ?_⟩⟩
    · exact isNameChar_of_isLower_or_isDigit (Or.inl h.1)
    · exact isNameChar_of_isLower_or_isDigit (h.2 d hd)

theorem isTagName_containerTag : IsTagName containerTag.toList :=
  ⟨by decide, List.all_eq_true.mp (by decide)⟩

/-- What is read is the prepared markup between the tags of the container. -/
theorem Tree.toList_wrap_between (markup : String) :
    (Tree.wrap markup).toList =
      '<' :: (tagMarkup escapeAmpersands containerTag.toList [] ++ '>' ::
        ((Tree.prepare markup).toList ++ '<' :: '/' :: (containerTag.toList ++ ['>']))) := by
  simp [Tree.wrap, tagMarkup, attributeMarkup]

namespace Pieces

/-- The markup of pieces has none of the excluded characters, if markers have none of them. -/
theorem not_mem_mark {excluded : List Char} {ps : List Piece} (h : WellFormed excluded ps)
    {c : Char} (hc : c ∈ excluded) (hb : c ≠ '[' ∧ c ≠ ']') (hd : isDigit c = false) (k : Nat) :
    c ∉ mark k ps := by
  have hp := h.plain
  clear h
  induction ps generalizing k with
  | nil => exact List.not_mem_nil
  | cons p ps ih =>
    have ht (j : Nat) : c ∉ mark j ps := ih j fun cs hcs => hp cs (List.mem_cons_of_mem p hcs)
    cases p with
    | literal cs =>
      rw [mark_literal, List.mem_append, not_or]
      exact ⟨hp cs List.mem_cons_self c hc, ht k⟩
    | slot v =>
      rw [mark_slot, List.mem_append, not_or]
      refine ⟨fun hm => ?_, ht (k + 1)⟩
      rcases mem_marker hm with hm | hm | hm
      · exact hb.1 hm
      · exact hb.2 hm
      · exact absurd hm (by simp [hd])

end Pieces

namespace Template

/-! ### Attributes -/

/-- The names of attributes and their values with markers, numbered from `k` on. -/
def numberAttributes (k : Nat) : List (List Char × List Piece) → List (List Char × List Char)
  | [] => []
  | (name, ps) :: attrs =>
    (name, Pieces.mark k ps) :: numberAttributes (k + (Pieces.values ps).length) attrs

variable {attrs : List (List Char × List Piece)}

theorem map_fst_numberAttributes (k : Nat) :
    (numberAttributes k attrs).map Prod.fst = attrs.map Prod.fst := by
  induction attrs generalizing k with
  | nil => rfl
  | cons attr attrs ih => exact congrArg (attr.1 :: ·) (ih _)

theorem mem_numberAttributes {k : Nat} {attr : List Char × List Char}
    (h : attr ∈ numberAttributes k attrs) :
    ∃ ps j, (attr.1, ps) ∈ attrs ∧ attr.2 = Pieces.mark j ps := by
  induction attrs generalizing k with
  | nil => cases h
  | cons a attrs ih =>
    rcases List.mem_cons.mp h with rfl | h
    · exact ⟨a.2, k, List.mem_cons_self, rfl⟩
    · obtain ⟨ps, j, hm, he⟩ := ih h
      exact ⟨ps, j, List.mem_cons_of_mem a hm, he⟩

/-- Attributes are written with escaped ampersands. -/
theorem escapeAmpersands_markAttributes (h : ∀ attr ∈ attrs, IsName attr.1) (k : Nat) :
    escapeAmpersands (markAttributes k attrs) =
      attributeMarkup escapeAmpersands (numberAttributes k attrs) := by
  induction attrs generalizing k with
  | nil => rfl
  | cons attr attrs ih =>
    obtain ⟨name, ps⟩ := attr
    have hn : escapeAmpersands name = name := escapeAmpersands_of_not_mem
      ((h _ List.mem_cons_self).isTagName.not_mem (by decide))
    have ht := ih (fun a ha => h a (List.mem_cons_of_mem _ ha))
    rw [markAttributes_cons, numberAttributes, attributeMarkup, ← ht]
    simp [escapeAmpersands_cons_of_ne, hn]

theorem isTagName_numberAttributes (h : ∀ attr ∈ attrs, IsName attr.1) (k : Nat) :
    ∀ attr ∈ numberAttributes k attrs, IsTagName attr.1 := by
  rintro attr ha
  obtain ⟨ps, j, hm, _⟩ := mem_numberAttributes ha
  exact (h _ hm).isTagName

/-- The attributes of a well-formed element are read back. -/
theorem readable_numberAttributes
    (h : ∀ attr ∈ attrs, IsName attr.1 ∧ Pieces.WellFormed ['<', '"'] attr.2)
    (hnodup : (attrs.map Prod.fst).Nodup) (k : Nat) :
    Readable escapeAmpersands (numberAttributes k attrs) where
  names attr ha := by
    obtain ⟨ps, j, hm, _⟩ := mem_numberAttributes ha
    exact (h _ hm).1.isTagName.isAttributeKey
  nodup := by rwa [map_fst_numberAttributes]
  quoted attr ha := by
    obtain ⟨ps, j, hm, he⟩ := mem_numberAttributes ha
    rw [he]
    exact not_mem_escapeAmpersands (by decide)
      (Pieces.not_mem_mark (h _ hm).2 (by simp) (by decide) (by decide) j)
  unescape attr _ := unescape_escapeAmpersands attr.2

/-! ### Escaped markup -/

theorem escapeAmpersands_mark_comment (k : Nat) (content : List Char) (m : Holed) :
    escapeAmpersands
        ((Holed.ofChars (['<', '!', '-', '-'] ++ content ++ ['-', '-', '>']) ++ m).mark k) =
      '<' :: '!' :: '-' :: '-' :: (escapeAmpersands content ++ '-' :: '-' :: '>' ::
        escapeAmpersands (m.mark k)) := by
  rw [mark_comment]
  simp [escapeAmpersands_cons_of_ne]

section Tag

variable {name : List Char} (hn : IsName name) (h : ∀ attr ∈ attrs, IsName attr.1) (k : Nat)
include hn h

/-- Of an element, the attribute values and the content are escaped. -/
theorem escapeAmpersands_mark_element (inner m : Holed) :
    escapeAmpersands ((Holed.ofChars ('<' :: name) ++ holedAttributes attrs ++ .ofChars ['>'] ++
        inner ++ .ofChars ('<' :: '/' :: (name ++ ['>'])) ++ m).mark k) =
      '<' :: (tagMarkup escapeAmpersands name (numberAttributes k attrs) ++ '>' ::
        (escapeAmpersands (inner.mark (k + (attributeValues attrs).length)) ++
          '<' :: '/' :: (name ++ '>' :: escapeAmpersands
            (m.mark (k + (attributeValues attrs).length + inner.holes))))) := by
  have he : escapeAmpersands name = name :=
    escapeAmpersands_of_not_mem (hn.isTagName.not_mem (by decide))
  rw [mark_element, tagMarkup, ← escapeAmpersands_markAttributes h]
  simp [escapeAmpersands_cons_of_ne, he]

theorem escapeAmpersands_mark_emptyTag (m : Holed) :
    escapeAmpersands ((Holed.ofChars ('<' :: name) ++ holedAttributes attrs ++
        .ofChars ['/', '>'] ++ m).mark k) =
      '<' :: (tagMarkup escapeAmpersands name (numberAttributes k attrs) ++ '/' :: '>' ::
        escapeAmpersands (m.mark (k + (attributeValues attrs).length))) := by
  have he : escapeAmpersands name = name :=
    escapeAmpersands_of_not_mem (hn.isTagName.not_mem (by decide))
  rw [mark_emptyTag, tagMarkup, ← escapeAmpersands_markAttributes h]
  simp [escapeAmpersands_cons_of_ne, he]

end Tag

/-! ### Nodes -/

/-- The node of a text, if it is not empty. -/
def textNodes (cs : List Char) : List Node :=
  if cs = [] then [] else [.text (String.ofList cs)]

/-- The nodes that a template is read as, with markers numbered from `k` on. -/
def nodes (k : Nat) : Template → List Node
  | nil => []
  | text ps next =>
    textNodes (Pieces.mark k ps) ++ next.nodes (k + (Pieces.values ps).length)
  | comment content next =>
    .comment (String.ofList (escapeAmpersands content)) :: next.nodes k
  | element name attrs children next =>
    .element (String.ofList name) (Builder.attributes (numberAttributes k attrs))
        (children.nodes (k + (attributeValues attrs).length)) ::
      next.nodes (k + (attributeValues attrs).length + children.values.length)

theorem flush_addText_eq_extend {b : Builder} (h : b.pending = []) (cs : List Char) :
    (b.addText cs).flush = b.extend (textNodes cs) := by
  rw [textNodes]
  split
  · rename_i he
    rw [he, Builder.addText_nil, Builder.flush_of_pending h]
    rfl
  · rename_i hne
    rw [Builder.flush_addText h hne]
    rfl

variable {whole : List Char} {t : Template} {m : Holed}

/-! ### Reading one tree of a template -/

section Tree

variable {b : Builder} (m) (k : Nat) (rest : List Char)

/-- A comment is read as one node, with escaped ampersands. -/
theorem resume_mark_comment {content : List Char} (hc : '>' ∉ content) :
    resume whole .strict b (escapeAmpersands
        ((Holed.ofChars (['<', '!', '-', '-'] ++ content ++ ['-', '-', '>']) ++ m).mark k) ++ rest) =
      resume whole .strict (b.push (.comment (String.ofList (escapeAmpersands content))))
        (escapeAmpersands (m.mark k) ++ rest) := by
  have hend : ¬ ['-', '-', '>'] <:+: escapeAmpersands content :=
    not_infix_of_not_mem (by decide) (not_mem_escapeAmpersands (by decide) hc)
  rw [← resume_comment hend, escapeAmpersands_mark_comment]
  simp only [List.cons_append, List.append_assoc]

variable {name : List Char} (hname : IsName name)
  (hattrs : ∀ attr ∈ attrs, IsName attr.1 ∧ Pieces.WellFormed ['<', '"'] attr.2)
  (hnodup : (attrs.map Prod.fst).Nodup)
include hname hattrs hnodup

/-- An element is read as one node, if its content is read as nodes. -/
theorem resume_mark_element {inner : Holed} {children : List Node}
    (hi : Reads .strict (escapeAmpersands (inner.mark (k + (attributeValues attrs).length)))
      children) :
    resume whole .strict b (escapeAmpersands
        ((Holed.ofChars ('<' :: name) ++ holedAttributes attrs ++ .ofChars ['>'] ++ inner ++
          .ofChars ('<' :: '/' :: (name ++ ['>'])) ++ m).mark k) ++ rest) =
      resume whole .strict
        (b.push (.element (String.ofList name) (Builder.attributes (numberAttributes k attrs))
          children))
        (escapeAmpersands (m.mark (k + (attributeValues attrs).length + inner.holes)) ++ rest) := by
  have hnames (attr) (ha : attr ∈ attrs) : IsName attr.1 := (hattrs attr ha).1
  have hreadable := readable_numberAttributes hattrs hnodup k
  have hwritable := hname.isTagName.writable (isTagName_numberAttributes hnames k) hreadable
  rw [← resume_element hwritable hreadable rfl hi, escapeAmpersands_mark_element hname hnames]
  simp only [List.cons_append, List.append_assoc]

/-- A tag that ends with `/>` is read as one node without children. -/
theorem resume_mark_emptyTag :
    resume whole .strict b (escapeAmpersands
        ((Holed.ofChars ('<' :: name) ++ holedAttributes attrs ++ .ofChars ['/', '>'] ++ m).mark
          k) ++ rest) =
      resume whole .strict
        (b.push (.element (String.ofList name) (Builder.attributes (numberAttributes k attrs)) []))
        (escapeAmpersands (m.mark (k + (attributeValues attrs).length)) ++ rest) := by
  have hnames (attr) (ha : attr ∈ attrs) : IsName attr.1 := (hattrs attr ha).1
  rw [← resume_emptyTag hname.isTagName (isTagName_numberAttributes hnames k)
      (readable_numberAttributes hattrs hnodup k),
    escapeAmpersands_mark_emptyTag hname hnames]
  simp only [List.cons_append, List.append_assoc]

end Tree

/-! ### Reading a template -/

/-- Reading the markup adds the nodes. A text at its start has to begin a new text node. -/
theorem WrittenAs.exists_resume_mark (hm : t.WrittenAs m) (h : t.WellFormed) (k : Nat) {b : Builder}
    (hb : b.pending = [] ∨ t.startsText = false) (rest : List Char) :
    ∃ b', resume whole .strict b (escapeAmpersands (m.mark k) ++ rest) =
        resume whole .strict b' rest ∧
      b'.flush = b.flush.extend (t.nodes k) := by
  induction hm generalizing whole k b rest with
  | nil => exact ⟨b, rfl, rfl⟩
  | @text ps next m _ ih =>
    obtain ⟨hps, hs, hnext⟩ := h
    have hlt : '<' ∉ Pieces.mark k ps :=
      Pieces.not_mem_mark hps List.mem_cons_self (by decide) (by decide) k
    have hp : b.pending = [] := hb.resolve_right (by simp [startsText])
    -- The text is still pending when the rest is read, which is why `b` is not always flushed.
    obtain ⟨b', hr, hb'⟩ := ih hnext (k + (Pieces.values ps).length)
      (b := b.addText (Pieces.mark k ps)) (Or.inr hs) rest
    refine ⟨b', ?_, ?_⟩
    · rw [mark_text, escapeAmpersands_append, List.append_assoc, resume_escapeAmpersands hlt, hr]
    · rw [hb', nodes, Builder.extend_append, Builder.flush_of_pending hp,
        flush_addText_eq_extend hp]
  | @comment content next m _ ih =>
    obtain ⟨hc, hnext⟩ := h
    obtain ⟨b', hr, hb'⟩ := ih hnext k (Or.inl (b.pending_push _)) rest
    refine ⟨b', (resume_mark_comment m k rest hc).trans hr, ?_⟩
    rw [hb', b.flush_push]
    rfl
  | @element name attrs children next inner m hc _ ihc ihn =>
    obtain ⟨hname, hattrs, hnodup, hchildren, hnext⟩ := h
    have hinner : Reads .strict
        (escapeAmpersands (inner.mark (k + (attributeValues attrs).length)))
        (children.nodes (k + (attributeValues attrs).length)) := fun whole c rest hc => by
      obtain ⟨b', hr, hb'⟩ := ihc hchildren _ (Or.inl hc) rest
      exact ⟨b', hr, by rw [hb', Builder.flush_of_pending hc]⟩
    obtain ⟨b', hr, hb'⟩ := ihn hnext
      (k + (attributeValues attrs).length + children.values.length)
      (Or.inl (b.pending_push _)) rest
    rw [← hc.holes] at hr
    refine ⟨b', (resume_mark_element m k rest hname hattrs hnodup hinner).trans hr, ?_⟩
    rw [hb', b.flush_push]
    rfl
  | @emptyTag name attrs next m _ ih =>
    obtain ⟨hname, hattrs, hnodup, -, hnext⟩ := h
    obtain ⟨b', hr, hb'⟩ := ih hnext (k + (attributeValues attrs).length)
      (Or.inl (b.pending_push _)) rest
    refine ⟨b', (resume_mark_emptyTag m k rest hname hattrs hnodup).trans hr, ?_⟩
    rw [hb', b.flush_push]
    rfl

/-- The markup of a template is read as its nodes. -/
theorem WrittenAs.reads_mark (hm : t.WrittenAs m) (h : t.WellFormed) (k : Nat) :
    Reads .strict (escapeAmpersands (m.mark k)) (t.nodes k) := by
  intro whole b rest hb
  obtain ⟨b', hr, hb'⟩ := hm.exists_resume_mark h k (Or.inl hb) rest
  exact ⟨b', hr, by rw [hb', Builder.flush_of_pending hb]⟩

/-- The markup of a template, prepared for reading, is one container of the nodes of the trimmed
template, whichever way the template is written. -/
theorem WrittenAs.parse_wrap (hm : t.WrittenAs m) (h : t.WellFormed) (k : Nat) :
    Markup.parse .strict (Tree.wrap (String.ofList (m.mark k))) =
      .ok [.element containerTag [] (t.trimmed.nodes k)] := by
  obtain ⟨m', hm', htrim⟩ := hm.exists_trim_mark h
  have hprepare : (Tree.prepare (String.ofList (m.mark k))).toList =
      escapeAmpersands (m'.mark k) := by simp [Tree.prepare, htrim]
  rw [Markup.parse, Tree.toList_wrap_between, hprepare,
    parseChars_element isTagName_containerTag.writable_nil readable_nil rfl
      (hm'.reads_mark h.trimmed k), String.ofList_toList]
  rfl

theorem parse_wrap (h : t.WellFormed) (k : Nat) :
    Markup.parse .strict (Tree.wrap (String.ofList (t.mark k))) =
      .ok [.element containerTag [] (t.trimmed.nodes k)] :=
  (writtenAs_holed t).parse_wrap h k

end Template

end MarkupTemplate
