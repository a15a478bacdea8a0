import Mathlib.Data.List.Chain
import MarkupTemplate.Proofs.Rendering.StaticMarkup
import MarkupTemplate.Proofs.Template.Subtrees

/-!
# The form of folded trees

Folding replaces the static parts of a tree, and nothing else. A tree becomes a text exactly if it
is static, so of what is below, the largest static parts become texts, which are joined with the
texts beside them. What is left has no two texts side by side and no static element, and folding
again changes nothing. The references, the calls with their attributes, and the elements that are
not static keep their places.

In a tree that markup makes, the attributes that keep an element from being folded are those that
hold a reference. A tree that was put together otherwise can have a value in pieces, all of them
literal.

## Main definitions

* `MarkupTemplate.Tree.callForest` — the calls of a tree with their attributes.
* `MarkupTemplate.Tree.skeleton` — a tree without its texts and its static elements.
* `MarkupTemplate.Tree.Folded` — trees that have nothing left to fold.
* `MarkupTemplate.Tree.IsFoldOf` — what a tree and its folded form have in common.

## Main results

* `MarkupTemplate.Tree.folded_fold`, `MarkupTemplate.Tree.Folded.fold_eq`
* `MarkupTemplate.Tree.dynamic_fold`, `MarkupTemplate.Tree.skeleton_fold`
* `MarkupTemplate.Tree.isFoldOf_fold` — folding a tree.
-/

namespace MarkupTemplate

open Text

variable {ω ο : Type}

/-! ### Literal attributes -/

theorem literals?_isSome_iff {attrs : Attributes} :
    attrs.literals?.isSome ↔ ∀ attr ∈ attrs, attr.2.IsLiteral := by
  induction attrs with
  | nil => simp [Attributes.literals?]
  | cons attr attrs ih =>
    rw [List.forall_mem_cons, ← ih]
    obtain ⟨name, value⟩ := attr
    by_cases h : value.IsLiteral
    · obtain ⟨s, rfl⟩ := h
      rw [Attributes.literals?, Option.isSome_map, and_iff_right ⟨s, rfl⟩]
    · have hn : Attributes.literals? ((name, value) :: attrs) = none := by
        rw [Attributes.literals?]
        rintro _ s ⟨⟩
        exact h ⟨s, rfl⟩
      rw [hn, Option.isSome_none]
      exact iff_of_false Bool.false_ne_true fun hl => h hl.1

/-- A value that is read from markup is one literal, unless it holds a reference. -/
theorem isLiteral_ofText_iff {value : String} :
    (AttrValue.ofText value).IsLiteral ↔ (AttrValue.ofText value).references = [] := by
  refine ⟨AttrValue.references_of_isLiteral, fun h => ?_⟩
  rw [references_ofText] at h
  exact ⟨_, ofText_of_markers_eq_nil h⟩

namespace Tree

variable {tag : String} {attrs : Attributes} {t : Tree ω ο} {ts : List (Tree ω ο)}

theorem ascends_attrs_ofTexts (registry : Registry ω ο) :
    Ascends registry fun t => ∀ s ∈ t.subtrees, ∃ texts, s.attrs = .ofTexts texts where
  text _ := forall_mem_subtrees.mpr ⟨⟨[], rfl⟩, nofun⟩
  reference _ := forall_mem_subtrees.mpr ⟨⟨[], rfl⟩, nofun⟩
  element _ attrs _ hc := forall_mem_subtrees.mpr ⟨⟨attrs, rfl⟩, hc⟩
  component _ _ attrs _ _ hc := forall_mem_subtrees.mpr ⟨⟨attrs, rfl⟩, hc⟩

/-- In a tree that markup makes, the values that are not one literal are those with a reference. -/
theorem isLiteral_iff_of_ofMarkup {registry : Registry ω ο} {markup : String} {s : Tree ω ο}
    (h : ofMarkup registry markup = .ok t) (hs : s ∈ t.subtrees) {attr : String × AttrValue}
    (ha : attr ∈ s.attrs) : attr.2.IsLiteral ↔ attr.2.references = [] := by
  obtain ⟨texts, he⟩ := (ascends_attrs_ofTexts registry).of_ofMarkup h s hs
  rw [he] at ha
  obtain ⟨_, -, rfl⟩ := List.mem_map.mp ha
  exact isLiteral_ofText_iff

/-! ### Folding one element -/

theorem not_dynamic_of_content? {content : String} : {ts : List (Tree ω ο)} →
    content? ts = some content → ∀ t ∈ ts, ¬ t.Dynamic
  | [], _ => nofun
  | [.text markup], _ => List.forall_mem_singleton.mpr (not_dynamic_text markup)

/-- An element with folded children stays an element, or it is static and becomes a text. -/
theorem foldElement_cases (tag : String) (attrs : Attributes) (ts : List (Tree ω ο)) :
    foldElement tag attrs ts = element tag attrs ts ∨
      (∃ markup, foldElement tag attrs ts = text markup) ∧ ¬ (element tag attrs ts).Dynamic ∧
        ∃ content, content? ts = some content := by
  rw [foldElement]
  split
  · rename_i content literals hc hl
    refine .inr ⟨⟨_, rfl⟩, fun h => ?_, content, hc⟩
    rcases dynamic_element.mp h with ⟨attr, ha, hd⟩ | ⟨t, ht, hd⟩
    · exact hd (literals?_isSome_iff.mp (Option.isSome_of_eq_some hl) attr ha)
    · exact not_dynamic_of_content? hc t ht hd
  · exact .inl rfl

theorem dynamic_foldElement :
    (foldElement tag attrs ts).Dynamic ↔ (element tag attrs ts).Dynamic := by
  obtain h | ⟨⟨markup, h⟩, hd, -⟩ := foldElement_cases tag attrs ts
  · rw [h]
  · rw [h]
    exact iff_of_false (not_dynamic_text markup) hd

/-- A dynamic element stays an element. -/
theorem foldElement_of_dynamic (h : (element tag attrs ts).Dynamic) :
    foldElement tag attrs ts = element tag attrs ts :=
  (foldElement_cases tag attrs ts).resolve_right fun hs => hs.2.1 h

/-! ### Joining texts -/

theorem exists_mem_consMerged {p : Tree ω ο → Prop} (hp : ∀ markup, ¬ p (text markup)) :
    (∃ u ∈ consMerged t ts, p u) ↔ p t ∨ ∃ u ∈ ts, p u := by
  rw [consMerged.eq_def]
  split
  · simp only [List.mem_cons, exists_eq_or_imp, hp, false_or]
  · simp only [List.mem_cons, exists_eq_or_imp]

theorem flatMap_consMerged {β : Type} {f : Tree ω ο → List β}
    (hf : ∀ markup, f (text markup) = []) :
    (consMerged t ts).flatMap f = f t ++ ts.flatMap f := by
  rw [consMerged.eq_def]
  split
  · simp only [List.flatMap_cons, hf, List.nil_append]
  · rw [List.flatMap_cons]

mutual

/-- Folding leaves dynamic trees dynamic, and static trees static. -/
theorem dynamic_fold : (t : Tree ω ο) → (t.fold.Dynamic ↔ t.Dynamic)
  | text _ => Iff.rfl
  | reference _ => Iff.rfl
  | element tag attrs children => by
    rw [fold, dynamic_foldElement, dynamic_element, dynamic_element,
      exists_dynamic_foldAll children]
  | component c attrs children =>
    iff_of_true (dynamic_component c attrs _) (dynamic_component c attrs children)

theorem exists_dynamic_foldAll : (ts : List (Tree ω ο)) →
    ((∃ t ∈ foldAll ts, t.Dynamic) ↔ ∃ t ∈ ts, t.Dynamic)
  | [] => Iff.rfl
  | t :: ts => by
    rw [foldAll, exists_mem_consMerged not_dynamic_text, dynamic_fold t,
      exists_dynamic_foldAll ts]
    simp only [List.mem_cons, exists_eq_or_imp]

end

/-- A dynamic element is kept, and its children are folded. -/
theorem fold_element_of_dynamic (h : (element tag attrs ts).Dynamic) :
    fold (element tag attrs ts) = element tag attrs (foldAll ts) := by
  refine foldElement_of_dynamic ?_
  rwa [← dynamic_foldElement, ← fold, dynamic_fold]

/-! ### Trees with nothing left to fold -/

/-- Whether a tree is a text. -/
def IsText (t : Tree ω ο) : Prop := ∃ markup, t = text markup

/-- No two trees side by side are texts. -/
def Spaced (ts : List (Tree ω ο)) : Prop := ts.IsChain fun t u => ¬ (t.IsText ∧ u.IsText)

/-- Nowhere in the tree are there two texts side by side or a static element. -/
def Folded (t : Tree ω ο) : Prop :=
  ∀ s ∈ t.subtrees, Spaced s.children ∧
    ((∃ tag attrs children, s = element tag attrs children) → s.Dynamic)

theorem spaced_consMerged (t : Tree ω ο) (h : Spaced ts) : Spaced (consMerged t ts) := by
  rw [consMerged.eq_def]
  split
  · rename_i a b ts
    -- the joined text is followed by what followed the second one
    cases ts with
    | nil => exact .singleton _
    | cons u ts =>
      obtain ⟨hb, hts⟩ := List.isChain_cons_cons.mp h
      exact .cons_cons (fun hu => hb ⟨⟨b, rfl⟩, hu.2⟩) hts
  · rename_i hne
    cases ts with
    | nil => exact .singleton _
    | cons u ts =>
      refine .cons_cons ?_ h
      rintro ⟨⟨a, rfl⟩, b, rfl⟩
      exact hne a b ts rfl rfl

theorem consMerged_of_spaced (h : Spaced (t :: ts)) : consMerged t ts = t :: ts := by
  rw [consMerged.eq_def]
  split
  · exact absurd ⟨⟨_, rfl⟩, _, rfl⟩ (List.isChain_cons_cons.mp h).1
  · rfl

theorem folded_text (markup : String) : (text markup : Tree ω ο).Folded :=
  forall_mem_subtrees.mpr ⟨⟨.nil, fun ⟨_, _, _, h⟩ => nomatch h⟩, nofun⟩

theorem folded_reference (index : Nat) : (reference index : Tree ω ο).Folded :=
  forall_mem_subtrees.mpr ⟨⟨.nil, fun ⟨_, _, _, h⟩ => nomatch h⟩, nofun⟩

theorem folded_element : (element tag attrs ts).Folded ↔
    (element tag attrs ts).Dynamic ∧ Spaced ts ∧ ∀ t ∈ ts, t.Folded := by
  refine forall_mem_subtrees.trans ⟨fun ⟨⟨hs, hd⟩, hc⟩ => ⟨hd ⟨_, _, _, rfl⟩, hs, hc⟩, ?_⟩
  exact fun ⟨hd, hs, hc⟩ => ⟨⟨hs, fun _ => hd⟩, hc⟩

theorem folded_component {c : Component ω ο} :
    (component c attrs ts).Folded ↔ Spaced ts ∧ ∀ t ∈ ts, t.Folded := by
  refine forall_mem_subtrees.trans ⟨fun ⟨⟨hs, _⟩, hc⟩ => ⟨hs, hc⟩, ?_⟩
  exact fun ⟨hs, hc⟩ => ⟨⟨hs, fun ⟨_, _, _, h⟩ => nomatch h⟩, hc⟩

theorem folded_consMerged (ht : t.Folded) (hts : ∀ u ∈ ts, u.Folded) :
    ∀ u ∈ consMerged t ts, u.Folded := by
  rw [consMerged.eq_def]
  split
  · exact List.forall_mem_cons.mpr ⟨folded_text _, (List.forall_mem_cons.mp hts).2⟩
  · exact List.forall_mem_cons.mpr ⟨ht, hts⟩

/-- A static tree with nothing left to fold is a text. -/
theorem Folded.isText_iff (h : t.Folded) : t.IsText ↔ ¬ t.Dynamic := by
  cases t with
  | text markup => exact iff_of_true ⟨markup, rfl⟩ (not_dynamic_text markup)
  | reference index => exact iff_of_false nofun (not_not_intro (dynamic_reference index))
  | element tag attrs ts => exact iff_of_false nofun (not_not_intro (folded_element.mp h).1)
  | component c attrs ts => exact iff_of_false nofun (not_not_intro (dynamic_component c attrs ts))

/-- Static children with nothing left to fold are one text at most. -/
theorem exists_content? (hs : Spaced ts) (hf : ∀ t ∈ ts, t.Folded) (hd : ∀ t ∈ ts, ¬ t.Dynamic) :
    ∃ content, content? ts = some content := by
  have htext : ∀ t ∈ ts, t.IsText := fun t ht => (hf t ht).isText_iff.mpr (hd t ht)
  match ts with
  | [] => exact ⟨"", rfl⟩
  | [t] =>
    obtain ⟨markup, rfl⟩ := htext t List.mem_cons_self
    exact ⟨markup, rfl⟩
  | t :: u :: ts =>
    exact absurd ⟨htext t (by simp), htext u (by simp)⟩ (List.isChain_cons_cons.mp hs).1

theorem folded_foldElement (tag : String) (attrs : Attributes) (hs : Spaced ts)
    (hf : ∀ t ∈ ts, t.Folded) : (foldElement tag attrs ts).Folded := by
  by_cases hd : (element tag attrs ts).Dynamic
  · rw [foldElement_of_dynamic hd]
    exact folded_element.mpr ⟨hd, hs, hf⟩
  · -- the children are one text at most and all attributes are literals, so a text is made of it
    simp only [dynamic_element, not_or, not_exists, not_and, not_not] at hd
    obtain ⟨content, hc⟩ := exists_content? hs hf hd.2
    obtain ⟨literals, hl⟩ := Option.isSome_iff_exists.mp (literals?_isSome_iff.mpr hd.1)
    rw [foldElement, hc, hl]
    exact folded_text _

mutual

/-- Folding leaves nothing to fold. -/
theorem folded_fold : (t : Tree ω ο) → t.fold.Folded
  | text markup => folded_text markup
  | reference index => folded_reference index
  | element tag attrs children =>
    folded_foldElement tag attrs (spaced_foldAll children) (folded_foldAll children)
  | component _ _ children =>
    folded_component.mpr ⟨spaced_foldAll children, folded_foldAll children⟩

theorem folded_foldAll : (ts : List (Tree ω ο)) → ∀ t ∈ foldAll ts, t.Folded
  | [] => nofun
  | t :: ts => folded_consMerged (folded_fold t) (folded_foldAll ts)

theorem spaced_foldAll : (ts : List (Tree ω ο)) → Spaced (foldAll ts)
  | [] => .nil
  | t :: ts => spaced_consMerged t.fold (spaced_foldAll ts)

end

mutual

/-- Folding changes no tree that has nothing left to fold. -/
theorem Folded.fold_eq : (t : Tree ω ο) → t.Folded → t.fold = t
  | text _, _ => rfl
  | reference _, _ => rfl
  | element tag attrs children, h => by
    obtain ⟨hd, hs, hc⟩ := folded_element.mp h
    rw [fold_element_of_dynamic hd, foldAll_eq_of_folded children hs hc]
  | component c attrs children, h => by
    obtain ⟨hs, hc⟩ := folded_component.mp h
    rw [fold, foldAll_eq_of_folded children hs hc]

theorem foldAll_eq_of_folded : (ts : List (Tree ω ο)) → Spaced ts → (∀ t ∈ ts, t.Folded) →
    foldAll ts = ts
  | [], _, _ => rfl
  | t :: ts, hs, hf => by
    obtain ⟨ht, hts⟩ := List.forall_mem_cons.mp hf
    rw [foldAll, Folded.fold_eq t ht, foldAll_eq_of_folded ts hs.tail hts,
      consMerged_of_spaced hs]

end

/-! ### What folding keeps -/

mutual

/-- The calls in a tree and nothing else, each with its attributes and the calls below it. -/
def callForest : Tree ω ο → List (Tree ω ο)
  | text _ => []
  | reference _ => []
  | element _ _ children => callForestAll children
  | component c attrs children => [component c attrs (callForestAll children)]

/-- The calls in a list of trees. -/
def callForestAll : List (Tree ω ο) → List (Tree ω ο)
  | [] => []
  | t :: ts => callForest t ++ callForestAll ts

end

mutual

/-- A tree without its texts and its static elements. -/
def skeleton : Tree ω ο → List (Tree ω ο)
  | text _ => []
  | reference index => [reference index]
  | element tag attrs children =>
    if (element tag attrs children).Dynamic then [element tag attrs (skeletonAll children)] else []
  | component c attrs children => [component c attrs (skeletonAll children)]

/-- A list of trees without its texts and its static elements. -/
def skeletonAll : List (Tree ω ο) → List (Tree ω ο)
  | [] => []
  | t :: ts => skeleton t ++ skeletonAll ts

end

theorem callForestAll_eq_flatMap (ts : List (Tree ω ο)) :
    callForestAll ts = ts.flatMap callForest := by
  induction ts with
  | nil => rfl
  | cons t ts ih => rw [callForestAll, ih, List.flatMap_cons]

theorem skeletonAll_eq_flatMap (ts : List (Tree ω ο)) : skeletonAll ts = ts.flatMap skeleton := by
  induction ts with
  | nil => rfl
  | cons t ts ih => rw [skeletonAll, ih, List.flatMap_cons]

theorem callForestAll_consMerged (t : Tree ω ο) (ts : List (Tree ω ο)) :
    callForestAll (consMerged t ts) = t.callForest ++ callForestAll ts := by
  rw [callForestAll_eq_flatMap, flatMap_consMerged fun _ => rfl, callForestAll_eq_flatMap]

theorem skeletonAll_consMerged (t : Tree ω ο) (ts : List (Tree ω ο)) :
    skeletonAll (consMerged t ts) = t.skeleton ++ skeletonAll ts := by
  rw [skeletonAll_eq_flatMap, flatMap_consMerged fun _ => rfl, skeletonAll_eq_flatMap]

theorem callForestAll_of_content? {content : String} : {ts : List (Tree ω ο)} →
    content? ts = some content → callForestAll ts = []
  | [], _ => rfl
  | [.text _], _ => rfl

theorem callForest_foldElement (tag : String) (attrs : Attributes) (ts : List (Tree ω ο)) :
    (foldElement tag attrs ts).callForest = callForestAll ts := by
  obtain h | ⟨⟨markup, h⟩, -, content, hc⟩ := foldElement_cases tag attrs ts
  · rw [h, callForest]
  · rw [h, callForestAll_of_content? hc, callForest]

mutual

/-- Folding keeps the calls with their attributes in their places. -/
theorem callForest_fold : (t : Tree ω ο) → t.fold.callForest = t.callForest
  | text _ => rfl
  | reference _ => rfl
  | element tag attrs children => by
    rw [fold, callForest_foldElement, callForestAll_foldAll children, callForest]
  | component c attrs children => by
    rw [fold, callForest, callForestAll_foldAll children, callForest]

theorem callForestAll_foldAll : (ts : List (Tree ω ο)) →
    callForestAll (foldAll ts) = callForestAll ts
  | [] => rfl
  | t :: ts => by
    rw [foldAll, callForestAll_consMerged, callForest_fold t, callForestAll_foldAll ts,
      callForestAll]

end

mutual

/-- Folding keeps what is not static in its place. -/
theorem skeleton_fold : (t : Tree ω ο) → t.fold.skeleton = t.skeleton
  | text _ => rfl
  | reference _ => rfl
  | element tag attrs children => by
    by_cases h : (element tag attrs children).Dynamic
    · have h' : (element tag attrs (foldAll children)).Dynamic := by
        rwa [← fold_element_of_dynamic h, dynamic_fold]
      rw [fold_element_of_dynamic h, skeleton, skeleton, if_pos h, if_pos h',
        skeletonAll_foldAll children]
    · -- a static element becomes a text, and neither has a skeleton
      obtain ⟨markup, ht⟩ :=
        (folded_fold (element tag attrs children)).isText_iff.mpr (mt (dynamic_fold _).mp h)
      rw [ht, skeleton, skeleton, if_neg h]
  | component c attrs children => by
    rw [fold, skeleton, skeletonAll_foldAll children, skeleton]

theorem skeletonAll_foldAll : (ts : List (Tree ω ο)) → skeletonAll (foldAll ts) = skeletonAll ts
  | [] => rfl
  | t :: ts => by
    rw [foldAll, skeletonAll_consMerged, skeleton_fold t, skeletonAll_foldAll ts, skeletonAll]

end

/-! ### Folding -/

/-- What a folded tree is, and what it has in common with the tree. -/
structure IsFoldOf (u t : Tree ω ο) : Prop where
  isText_iff : (∃ markup, u = text markup) ↔ ¬ t.Dynamic
  spaced : ∀ s ∈ u.subtrees, Spaced s.children
  dynamic : ∀ s ∈ u.subtrees, (∃ tag attrs children, s = element tag attrs children) → s.Dynamic
  references : u.references = t.references
  callForest : u.callForest = t.callForest
  skeleton : u.skeleton = t.skeleton

/-- **Folding a tree.** The tree becomes a text if it is static and only then. No two texts remain
side by side and no static element remains, while the references, the calls and all that is not
static keep their places. Folding twice is folding once. In a tree that markup makes, the values
that are not one literal are those with a reference. -/
theorem isFoldOf_fold (t : Tree ω ο) :
    IsFoldOf t.fold t ∧ t.fold.fold = t.fold ∧
      ∀ (registry : Registry ω ο) (markup : String), ofMarkup registry markup = .ok t →
        ∀ s ∈ t.subtrees, ∀ attr ∈ s.attrs, ¬ attr.2.IsLiteral ↔ attr.2.references ≠ [] where
  left :=
    { isText_iff := (folded_fold t).isText_iff.trans (not_congr (dynamic_fold t))
      spaced := fun s hs => (folded_fold t s hs).1
      dynamic := fun s hs => (folded_fold t s hs).2
      references := references_fold t
      callForest := callForest_fold t
      skeleton := skeleton_fold t }
  right := by
    refine ⟨Folded.fold_eq _ (folded_fold t), fun registry markup h s hs attr ha => ?_⟩
    exact not_congr (isLiteral_iff_of_ofMarkup h hs ha)

theorem isFoldOf_fold_boxed :
    ofMarkup sections "<Box><p id=\"x\">1 &amp; 2</p>[[[0]]]</Box>" = .ok boxed ∧
      boxed.fold = .component box [] [.text "<p id=\"x\">1 &amp; 2</p>", .reference 0] ∧
      IsFoldOf boxed.fold boxed ∧ boxed.fold.fold = boxed.fold ∧
      ∀ s ∈ boxed.subtrees, ∀ attr ∈ s.attrs,
        ¬ attr.2.IsLiteral ↔ attr.2.references ≠ [] := by
  obtain ⟨hfold, htwice, hattrs⟩ := isFoldOf_fold boxed
  exact ⟨ofMarkup_boxed, rfl, hfold, htwice, hattrs sections _ ofMarkup_boxed⟩

/-- Pieces that are all literal are not one literal, though they hold no reference. Markup makes
no such value. -/
example : ¬ (AttrValue.parts [.text "a", .text "b"]).IsLiteral ∧
    (AttrValue.parts [.text "a", .text "b"]).references = [] := by decide

end Tree

end MarkupTemplate
