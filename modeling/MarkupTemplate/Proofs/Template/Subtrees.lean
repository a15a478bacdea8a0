import MarkupTemplate.Proofs.Suspension.AttemptLaws
import MarkupTemplate.Template.Fold

/-!
# Subtrees

The subtrees of a tree are the tree itself and all trees below it. A statement about every node of
a tree is made of its subtrees, each of which has a node at its root.

A tree is dynamic if one of its nodes varies with the values or the components that it is rendered
with: if the node is a reference or a call, or if an attribute has another value than one literal.

## Main definitions

* `MarkupTemplate.Tree.subtrees`, `MarkupTemplate.Tree.attrs`, `MarkupTemplate.Tree.children`.
* `MarkupTemplate.AttrValue.IsLiteral`, `MarkupTemplate.Tree.Varies`,
  `MarkupTemplate.Tree.Dynamic`.
* `MarkupTemplate.Tree.CallsOnly` — trees whose components have a property.
* `MarkupTemplate.Tree.Ascends` — properties that pass from children to their parents.

## Main results

* `MarkupTemplate.Tree.childInduction` — induction on a tree.
* `MarkupTemplate.Tree.Ascends.of_ofMarkup` — what holds of the trees that markup makes.
* `MarkupTemplate.Tree.references_subset` — a subtree has no other references than the tree.
* `MarkupTemplate.Tree.dynamic_element` — whether an element is dynamic.
-/

namespace MarkupTemplate

open Dom

variable {ω ο : Type}

/-- An attribute value that is one literal. -/
def AttrValue.IsLiteral (value : AttrValue) : Prop := ∃ s, value = .single (.text s)

instance : (value : AttrValue) → Decidable value.IsLiteral
  | .single (.text s) => isTrue ⟨s, rfl⟩
  | .single (.reference _) => isFalse fun ⟨_, h⟩ => nomatch h
  | .parts _ => isFalse fun ⟨_, h⟩ => nomatch h

theorem AttrValue.references_of_isLiteral {value : AttrValue} (h : value.IsLiteral) :
    value.references = [] := by
  obtain ⟨s, rfl⟩ := h
  rfl

namespace Tree

mutual

/-- The tree and all trees below it, in document order. -/
def subtrees : Tree ω ο → List (Tree ω ο)
  | text markup => [text markup]
  | reference index => [reference index]
  | element tag attrs children => element tag attrs children :: subtreesAll children
  | component c attrs children => component c attrs children :: subtreesAll children

/-- The subtrees of all trees of a list. -/
def subtreesAll : List (Tree ω ο) → List (Tree ω ο)
  | [] => []
  | t :: ts => subtrees t ++ subtreesAll ts

end

/-- The attributes of the node at the root. -/
def attrs : Tree ω ο → Attributes
  | element _ attrs _ => attrs
  | component _ attrs _ => attrs
  | _ => []

/-- The children of the node at the root. -/
def children : Tree ω ο → List (Tree ω ο)
  | element _ _ children => children
  | component _ _ children => children
  | _ => []

/-- The node at the root is a reference or a call, or it has an attribute whose value is not one
literal. -/
def Varies : Tree ω ο → Prop
  | text _ => False
  | reference _ => True
  | element _ attrs _ => ∃ attr ∈ attrs, ¬ attr.2.IsLiteral
  | component .. => True

/-- A node of the tree varies. -/
def Dynamic (t : Tree ω ο) : Prop := ∃ s ∈ t.subtrees, s.Varies

instance : (t : Tree ω ο) → Decidable t.Varies
  | text _ => isFalse id
  | reference _ => isTrue trivial
  | element _ attrs _ => inferInstanceAs (Decidable (∃ attr ∈ attrs, ¬ attr.2.IsLiteral))
  | component .. => isTrue trivial

instance (t : Tree ω ο) : Decidable t.Dynamic :=
  inferInstanceAs (Decidable (∃ s ∈ t.subtrees, s.Varies))

/-! ### Induction -/

mutual

/-- What a tree inherits from its children holds of every tree. -/
@[elab_as_elim]
theorem childInduction {motive : Tree ω ο → Prop}
    (step : ∀ t, (∀ u ∈ t.children, motive u) → motive t) : (t : Tree ω ο) → motive t
  | text _ => step _ nofun
  | reference _ => step _ nofun
  | element _ _ children => step _ (childInductionAll step children)
  | component _ _ children => step _ (childInductionAll step children)

theorem childInductionAll {motive : Tree ω ο → Prop}
    (step : ∀ t, (∀ u ∈ t.children, motive u) → motive t) :
    (ts : List (Tree ω ο)) → ∀ t ∈ ts, motive t
  | [] => nofun
  | t :: ts => List.forall_mem_cons.mpr ⟨childInduction step t, childInductionAll step ts⟩

end

/-! ### Subtrees -/

theorem mem_subtrees_self (t : Tree ω ο) : t ∈ t.subtrees := by
  cases t <;> exact List.mem_cons_self

theorem mem_subtreesAll {s : Tree ω ο} {ts : List (Tree ω ο)} :
    s ∈ subtreesAll ts ↔ ∃ t ∈ ts, s ∈ t.subtrees := by
  induction ts with
  | nil => simp [subtreesAll]
  | cons t ts ih => simp [subtreesAll, ih]

/-- The subtrees below the root are those of the children. -/
theorem mem_subtrees {s t : Tree ω ο} :
    s ∈ t.subtrees ↔ s = t ∨ ∃ u ∈ t.children, s ∈ u.subtrees := by
  cases t with
  | text markup => simp [subtrees, children]
  | reference index => simp [subtrees, children]
  | element tag attrs ts => rw [subtrees, List.mem_cons, mem_subtreesAll, children]
  | component c attrs ts => rw [subtrees, List.mem_cons, mem_subtreesAll, children]

/-- A statement about all subtrees is one about the root and one about the children. -/
theorem forall_mem_subtrees {p : Tree ω ο → Prop} {t : Tree ω ο} :
    (∀ s ∈ t.subtrees, p s) ↔ p t ∧ ∀ u ∈ t.children, ∀ s ∈ u.subtrees, p s := by
  constructor
  · intro h
    exact ⟨h t (mem_subtrees_self t), fun u hu s hs => h s (mem_subtrees.mpr (.inr ⟨u, hu, hs⟩))⟩
  · rintro ⟨ht, hc⟩ s hs
    rcases mem_subtrees.mp hs with rfl | ⟨u, hu, hs⟩
    · exact ht
    · exact hc u hu s hs

/-- The subtrees of a subtree are subtrees. -/
theorem mem_subtrees_trans {s t u : Tree ω ο} (hs : s ∈ t.subtrees) (hu : u ∈ s.subtrees) :
    u ∈ t.subtrees := by
  induction t using childInduction with
  | step t ih =>
    rcases mem_subtrees.mp hs with rfl | ⟨v, hv, hs⟩
    · exact hu
    · exact mem_subtrees.mpr (.inr ⟨v, hv, ih v hv hs⟩)

/-! ### Calls -/

/-- All components that the tree calls have a property. -/
def CallsOnly (p : Component ω ο → Prop) (t : Tree ω ο) : Prop :=
  ∀ s ∈ t.subtrees, ∀ c attrs children, s = component c attrs children → p c

section CallsOnly

variable {p : Component ω ο → Prop} {tag : String} {attrs : Attributes}
  {children : List (Tree ω ο)}

theorem CallsOnly.of_mem {s t : Tree ω ο} (h : t.CallsOnly p) (hs : s ∈ t.subtrees) :
    s.CallsOnly p := fun u hu => h u (mem_subtrees_trans hs hu)

theorem callsOnly_element :
    (element tag attrs children).CallsOnly p ↔ ∀ t ∈ children, t.CallsOnly p :=
  forall_mem_subtrees.trans (and_iff_right nofun)

theorem callsOnly_component {c : Component ω ο} :
    (component c attrs children).CallsOnly p ↔ p c ∧ ∀ t ∈ children, t.CallsOnly p := by
  refine forall_mem_subtrees.trans (and_congr_left fun _ => ⟨fun h => h _ _ _ rfl, ?_⟩)
  rintro hc _ _ _ ⟨⟩
  exact hc

end CallsOnly

/-! ### Trees of markup -/

/-- A property of texts and references that passes from the children to the elements and calls
that markup is made of. -/
structure Ascends (registry : Registry ω ο) (p : Tree ω ο → Prop) : Prop where
  text : ∀ markup, p (text markup)
  reference : ∀ index, p (reference index)
  element : ∀ tag attrs children, (∀ t ∈ children, p t) → p (element tag (.ofTexts attrs) children)
  component : ∀ tag c attrs children, resolve registry tag = .ok c → (∀ t ∈ children, p t) →
    p (component c (.ofTexts attrs) children)

namespace Ascends

variable {registry : Registry ω ο} {p : Tree ω ο → Prop}

theorem of_ofElement (hp : Ascends registry p) {name : String} {attrs : KeyedList String String}
    {children : Except Error (List (Tree ω ο))} {t : Tree ω ο}
    (hc : ∀ ts, children = .ok ts → ∀ t ∈ ts, p t)
    (h : ofElement registry name attrs children = .ok t) : p t := by
  rw [ofElement] at h
  split at h
  · obtain ⟨c, hr, h⟩ := Except.bind_eq_ok_iff.mp h
    obtain ⟨ts, hts, h⟩ := Except.bind_eq_ok_iff.mp h
    cases h
    exact hp.component name c attrs ts hr (hc ts hts)
  · obtain ⟨ts, hts, h⟩ := Except.bind_eq_ok_iff.mp h
    cases h
    exact hp.element name attrs ts (hc ts hts)

mutual

theorem of_ofNode (hp : Ascends registry p) : (n : Node) → {ts : List (Tree ω ο)} →
    ofNode registry n = .ok ts → ∀ t ∈ ts, p t
  | .text content, _, h => by
    cases h
    refine List.forall_mem_map.mpr fun segment _ => ?_
    cases segment
    · exact hp.text _
    · exact hp.reference _
  | .element name attrs children, _, h => by
    obtain ⟨t, ht, rfl⟩ := Except.map_eq_ok_iff.mp h
    exact List.forall_mem_singleton.mpr (hp.of_ofElement (fun _ => hp.of_ofNodes children) ht)
  | .comment content, _, h => by cases h; exact List.forall_mem_singleton.mpr (hp.text _)
  | .doctype content, _, h => by cases h; exact List.forall_mem_singleton.mpr (hp.text _)
  | .instruction target data, _, h => by cases h; exact List.forall_mem_singleton.mpr (hp.text _)
  | .fragment children, _, h => by cases h; exact List.forall_mem_singleton.mpr (hp.text _)

theorem of_ofNodes (hp : Ascends registry p) : (ns : List Node) → {ts : List (Tree ω ο)} →
    ofNodes registry ns = .ok ts → ∀ t ∈ ts, p t
  | [], _, h => by
    cases h
    exact nofun
  | n :: ns, _, h => by
    rw [ofNodes] at h
    obtain ⟨ts, hts, h⟩ := Except.bind_eq_ok_iff.mp h
    obtain ⟨us, hus, h⟩ := Except.bind_eq_ok_iff.mp h
    cases h
    exact List.forall_mem_append.mpr ⟨hp.of_ofNode n hts, hp.of_ofNodes ns hus⟩

end

theorem of_ofRoot (hp : Ascends registry p) {n : Node} {t : Tree ω ο}
    (h : ofRoot registry n = .ok t) : p t := by
  rw [ofRoot] at h
  obtain ⟨ts, hts, h⟩ := Except.bind_eq_ok_iff.mp h
  have hall := hp.of_ofNode n hts
  split at h
  · cases h
    exact hall t List.mem_cons_self
  · obtain ⟨c, hc, h⟩ := Except.bind_eq_ok_iff.mp h
    cases h
    exact hp.component _ c [] ts hc hall

/-- A property that ascends holds of the tree of a markup. -/
theorem of_ofMarkup (hp : Ascends registry p) {markup : String} {t : Tree ω ο}
    (h : ofMarkup registry markup = .ok t) : p t := by
  rw [ofMarkup] at h
  split at h
  · rw [ofForest.eq_def] at h
    split at h
    split at h
    · exact hp.of_ofRoot h
    · exact hp.of_ofElement (fun _ => hp.of_ofNodes _) h
  · cases h

end Ascends

/-! ### References -/

theorem references_subset_referencesAll {t : Tree ω ο} {ts : List (Tree ω ο)} (h : t ∈ ts) :
    t.references ⊆ referencesAll ts := by
  induction ts with
  | nil => cases h
  | cons u ts ih =>
    rw [referencesAll]
    rcases List.mem_cons.mp h with rfl | h
    · exact List.subset_append_left _ _
    · exact List.subset_append_of_subset_right _ (ih h)

theorem references_child_subset {t u : Tree ω ο} (h : u ∈ t.children) :
    u.references ⊆ t.references := by
  cases t with
  | text markup => cases h
  | reference index => cases h
  | element tag attrs ts =>
    exact List.subset_append_of_subset_right _ (references_subset_referencesAll h)
  | component c attrs ts =>
    exact List.subset_append_of_subset_right _ (references_subset_referencesAll h)

/-- A subtree has no other references than the tree. -/
theorem references_subset {s t : Tree ω ο} (h : s ∈ t.subtrees) :
    s.references ⊆ t.references := by
  induction t using childInduction with
  | step t ih =>
    rcases mem_subtrees.mp h with rfl | ⟨u, hu, hs⟩
    · exact List.Subset.refl _
    · exact List.Subset.trans (ih u hu hs) (references_child_subset hu)

/-! ### Dynamic trees -/

theorem not_dynamic_text (markup : String) : ¬ (text markup : Tree ω ο).Dynamic :=
  of_decide_eq_false rfl

theorem dynamic_reference (index : Nat) : (reference index : Tree ω ο).Dynamic :=
  ⟨_, mem_subtrees_self _, trivial⟩

theorem dynamic_component (c : Component ω ο) (attrs : Attributes) (children : List (Tree ω ο)) :
    (component c attrs children).Dynamic :=
  ⟨_, mem_subtrees_self _, trivial⟩

/-- An element is dynamic for its attributes or for one of its children. -/
theorem dynamic_element {tag : String} {attrs : Attributes} {children : List (Tree ω ο)} :
    (element tag attrs children).Dynamic ↔
      (∃ attr ∈ attrs, ¬ attr.2.IsLiteral) ∨ ∃ t ∈ children, t.Dynamic := by
  constructor
  · rintro ⟨s, hs, h⟩
    rcases mem_subtrees.mp hs with rfl | ⟨u, hu, hs⟩
    · exact .inl h
    · exact .inr ⟨u, hu, s, hs, h⟩
  · rintro (h | ⟨u, hu, s, hs, h⟩)
    · exact ⟨_, mem_subtrees_self _, h⟩
    · exact ⟨s, mem_subtrees.mpr (.inr ⟨u, hu, hs⟩), h⟩

end Tree

end MarkupTemplate
