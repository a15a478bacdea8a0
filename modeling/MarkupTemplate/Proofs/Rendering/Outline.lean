import MarkupTemplate.Proofs.KeyedLists
import MarkupTemplate.Proofs.Rendering.Prompt

/-!
# What values can change in a document

A tree without calls has an outline: the nodes of its literal markup, and holes for its
references. Rendering to nodes fills the holes with the texts of values and does nothing else, so
values that are no nodes themselves decide about the content of texts and attribute values, never
about the shape of the document. It fails only on a reference beyond the number of values, which
depends on their number alone.

## Main definitions

* `MarkupTemplate.Outline`, `MarkupTemplate.Outline.fill` — a document with holes, and the document
  with the holes filled.
* `MarkupTemplate.Tree.outline` — the outline of a tree without calls.
* `MarkupTemplate.Dom.Node.shape` — a document without its texts and attribute values.

## Main results

* `MarkupTemplate.Tree.render_dom_eq` — rendering checks the references and fills the outline.
* `MarkupTemplate.Tree.render_dom_shape` — values cannot change the shape of a document.
-/

namespace MarkupTemplate

open Dom

variable {ω : Type}

/-! ### The order of references -/

/-- Fails on the first reference that `count` values leave without a value. -/
def checkReferences (count : Nat) (refs : List Nat) : Except Error Unit :=
  Except.firstError (fun i => decide (count ≤ i)) (fun i => .missingSubstitution i count) refs

theorem checkReferences_append (count : Nat) (refs more : List Nat) :
    checkReferences count (refs ++ more) =
      checkReferences count refs >>= fun _ => checkReferences count more :=
  Except.firstError_append _ _ refs more

theorem checkReferences_eq_ok_iff {count : Nat} {refs : List Nat} :
    checkReferences count refs = .ok () ↔ ∀ i ∈ refs, i < count := by
  rw [checkReferences, Except.firstError]
  cases h : refs.find? fun i => decide (count ≤ i) with
  | none =>
    refine iff_of_true rfl fun i hi => ?_
    exact Nat.lt_of_not_le fun hle => List.find?_eq_none.mp h i hi (decide_eq_true hle)
  | some i =>
    refine iff_of_false (fun he => by cases he) fun hlt => ?_
    have hle : count ≤ i := by simpa using List.find?_some h
    exact Nat.not_le_of_lt (hlt i (List.mem_of_find?_eq_some h)) hle

theorem lt_of_checkReferences {count : Nat} {refs : List Nat}
    (h : checkReferences count refs = .ok ()) : ∀ i ∈ refs, i < count :=
  checkReferences_eq_ok_iff.mp h

/-! ### The texts of values -/

/-- The value of the slot `index`, `null` beyond the last value. -/
def valueAt (values : List Value) (index : Nat) : Value := values[index]?.getD .null

/-- The text of the slot `index`. -/
def textAt (values : List Value) (index : Nat) : String := (valueAt values index).text

/-- The text of a piece with its reference filled. -/
def Part.fill (values : List Value) : Part → String
  | text content => content
  | reference index => textAt values index

/-- The text of an attribute value with its references filled. -/
def AttrValue.fill (values : List Value) (value : AttrValue) : String :=
  String.join (value.pieces.map (Part.fill values))

section Resolve

variable (values : List Value)

theorem substitution_eq (index : Nat) :
    substitution values index = do
      checkReferences values.length [index]
      return valueAt values index := by
  rw [substitution, valueAt, checkReferences, Except.firstError, List.find?_singleton]
  rcases hv : values[index]? with _ | v
  · rw [if_pos (decide_eq_true (List.getElem?_eq_none_iff.mp hv))]
    rfl
  · rw [if_neg (by simpa using (List.getElem?_eq_some_iff.mp hv).1)]
    rfl

theorem Part.resolve_eq (p : Part) :
    p.resolve values = do
      checkReferences values.length p.reference?.toList
      return p.fill values := by
  cases p with
  | text content => rfl
  | reference index =>
    rw [resolve, substitution_eq]
    exact map_bind Value.text (checkReferences values.length [index]) _

theorem resolveParts_eq (ps : List Part) :
    resolveParts values ps = do
      checkReferences values.length (ps.filterMap Part.reference?)
      return String.join (ps.map (Part.fill values)) := by
  induction ps with
  | nil => rfl
  | cons p ps ih =>
    have hrefs : (p :: ps).filterMap Part.reference? =
        p.reference?.toList ++ ps.filterMap Part.reference? := by
      cases p <;> rfl
    rw [resolveParts, Part.resolve_eq, ih, hrefs, checkReferences_append, List.map_cons,
      String.join_cons]
    simp only [bind_assoc, pure_bind]

/-- Resolving attributes checks their references and fills them. -/
theorem resolveAttributes_eq (attrs : Attributes) :
    resolveAttributes values attrs = do
      checkReferences values.length attrs.references
      return attrs.map fun attr => (attr.1, attr.2.fill values) := by
  induction attrs with
  | nil => rfl
  | cons attr attrs ih =>
    have hrefs : Attributes.references (attr :: attrs) =
        attr.2.references ++ Attributes.references attrs := rfl
    rw [resolveAttributes, resolveParts_eq, ih, hrefs, checkReferences_append]
    simp only [bind_assoc, pure_bind]
    rfl

end Resolve

/-! ### Outlines -/

/-- A document in which the content of some texts and attribute values is still to come. -/
inductive Outline where
  /-- A node of literal markup. -/
  | fixed (n : Node)
  /-- The text of the value `index`. -/
  | hole (index : Nat)
  | element (name : String) (attrs : KeyedList String AttrValue) (children : List Outline)

namespace Outline

mutual

/-- The document with the texts of values in its holes. -/
def fill (values : List Value) : Outline → Node
  | fixed n => n
  | hole index => .text (textAt values index)
  | element name attrs children =>
    .element name (attrs.map fun attr => (attr.1, attr.2.fill values)) (fillAll values children)

/-- Documents in a row with their holes filled. -/
def fillAll (values : List Value) : List Outline → List Node
  | [] => []
  | o :: os => fill values o :: fillAll values os

end

/-- The outline as it is appended to a parent. -/
def dissolve : Outline → List Outline
  | fixed n => n.flatten.map fixed
  | o => [o]

variable (values : List Value)

theorem fillAll_append (os us : List Outline) :
    fillAll values (os ++ us) = fillAll values os ++ fillAll values us := by
  induction os with
  | nil => rfl
  | cons o os ih => exact congrArg (o.fill values :: ·) ih

theorem fillAll_map_fixed (ns : List Node) : fillAll values (ns.map fixed) = ns := by
  induction ns with
  | nil => rfl
  | cons n ns ih => exact congrArg (n :: ·) ih

theorem fillAll_dissolve : (o : Outline) → fillAll values o.dissolve = (o.fill values).flatten
  | fixed n => fillAll_map_fixed values n.flatten
  | hole _ => rfl
  | element .. => rfl

end Outline

namespace Tree

mutual

/-- A tree without calls of components. -/
def CallFree : Tree ω Node → Prop
  | text _ => True
  | reference _ => True
  | element _ _ children => CallFreeAll children
  | component .. => False

/-- Trees without calls of components. -/
def CallFreeAll : List (Tree ω Node) → Prop
  | [] => True
  | t :: ts => t.CallFree ∧ CallFreeAll ts

end

mutual

/-- What is known of the document of a tree before its values are. A call has no outline, and an
empty fragment stands for it. -/
def outline : Tree ω Node → Outline
  | text markup => .fixed (Backend.nodeOfMarkup markup)
  | reference index => .hole index
  | element tag attrs children => .element tag (KeyedList.ofPairs attrs) (outlineAll children)
  | component .. => .fixed (.fragment [])

/-- The outlines of siblings, without fragments. -/
def outlineAll : List (Tree ω Node) → List Outline
  | [] => []
  | t :: ts => (outline t).dissolve ++ outlineAll ts

end

/-! ### Rendering fills the outline -/

variable {values : List Value}

/-- A value that is no node becomes a text, whatever it holds. -/
theorem nodeOfValue_eq_text {v : Value} (h : v.node? = none) :
    Backend.nodeOfValue v = .text v.text := by
  cases v with
  | node n => cases h
  | null => rfl
  | bool b => rfl
  | int n => rfl
  | float x => rfl
  | str s => rfl

theorem nodeOfValue_valueAt (hv : ∀ v ∈ values, v.node? = none) (index : Nat) :
    Backend.nodeOfValue (valueAt values index) = .text (textAt values index) := by
  refine nodeOfValue_eq_text ?_
  rw [valueAt]
  rcases hi : values[index]? with _ | v
  · rfl
  · exact hv v (List.mem_of_getElem? hi)

theorem fillAll_outlineAll (ts : List (Tree ω Node)) :
    Outline.fillAll values (outlineAll ts) =
      Node.flattenAll (ts.map fun t => t.outline.fill values) := by
  induction ts with
  | nil => rfl
  | cons t ts ih =>
    rw [outlineAll, Outline.fillAll_append, Outline.fillAll_dissolve, ih]
    rfl

mutual

/-- Rendering a tree without calls checks its references in order and fills its outline. -/
theorem render_dom_eq (hv : ∀ v ∈ values, v.node? = none) : (t : Tree ω Node) → t.CallFree →
    t.render .dom values = do
      Attempt.ofExcept (checkReferences values.length t.references)
      return .ready (t.outline.fill values)
  | text markup, _ => rfl
  | reference index, _ => by
    rw [render, substitution_eq, references]
    rcases checkReferences values.length [index] with e | _
    · rfl
    · have hn := nodeOfValue_valueAt hv index
      exact congrArg (fun n => (Attempt.succeed (.ready n) : Attempt ω (Rendered ω Node))) hn
  | element tag attrs children, ht => by
    rw [render, resolveAttributes_eq, renderAll_dom_eq hv children ht, references,
      checkReferences_append]
    rcases checkReferences values.length (Attributes.references attrs) with e | _
    · rfl
    rcases checkReferences values.length (referencesAll children) with e | _
    · rfl
    have hjoin := joinRendered_map_ready (ω := ω) (children.map fun t => t.outline.fill values)
    rw [List.map_map] at hjoin
    have hnode : Backend.dom.element tag (attrs.map fun attr => (attr.1, attr.2.fill values))
        (.fragment (Node.flattenAll (children.map fun t => t.outline.fill values))) =
          (outline (element tag attrs children)).fill values := by
      rw [outline, Outline.fill, fillAll_outlineAll, ← KeyedList.ofPairs_map_snd]
      exact congrArg _ (Node.flattenAll_flattenAll _)
    rw [← hnode]
    exact congrArg (fun r : Rendered ω Node => (Attempt.succeed (r.map
      (Backend.dom.element tag (attrs.map fun attr => (attr.1, attr.2.fill values)))) :
        Attempt ω (Rendered ω Node))) hjoin
  | component .., ht => ht.elim

/-- Siblings without calls are rendered up to the first reference without a value. -/
theorem renderAll_dom_eq (hv : ∀ v ∈ values, v.node? = none) :
    (ts : List (Tree ω Node)) → CallFreeAll ts →
    renderAll .dom values ts = do
      Attempt.ofExcept (checkReferences values.length (referencesAll ts))
      return ts.map fun t => .ready (t.outline.fill values)
  | [], _ => rfl
  | t :: ts, ⟨ht, hts⟩ => by
    rw [renderAll, render_dom_eq hv t ht, renderAll_dom_eq hv ts hts, referencesAll,
      checkReferences_append]
    rcases checkReferences values.length t.references with e | _
    · rfl
    · rcases checkReferences values.length (referencesAll ts) with e | _ <;> rfl

end

end Tree

/-! ### The shape of a document -/

namespace Dom.Node

mutual

/-- A document with empty texts and attribute values. Kinds, names, comments and all else stay. -/
def shape : Node → Node
  | element name attrs children =>
    element name (attrs.map fun attr => (attr.1, "")) (shapeAll children)
  | text _ => text ""
  | comment content => comment content
  | doctype content => doctype content
  | instruction target data => instruction target data
  | fragment children => fragment (shapeAll children)

/-- Documents in a row with empty texts and attribute values. -/
def shapeAll : List Node → List Node
  | [] => []
  | n :: ns => shape n :: shapeAll ns

end

end Dom.Node

mutual

/-- However an outline is filled, the document has one shape. -/
theorem Outline.shape_fill (vs ws : List Value) : (o : Outline) →
    (o.fill vs).shape = (o.fill ws).shape
  | fixed _ => rfl
  | hole _ => rfl
  | element name attrs children => by
    rw [fill, fill, Node.shape, Node.shape, shapeAll_fillAll vs ws children, List.map_map,
      List.map_map]
    rfl

theorem Outline.shapeAll_fillAll (vs ws : List Value) : (os : List Outline) →
    Node.shapeAll (fillAll vs os) = Node.shapeAll (fillAll ws os)
  | [] => rfl
  | o :: os => by
    rw [fillAll, fillAll, Node.shapeAll, Node.shapeAll, shape_fill vs ws o,
      shapeAll_fillAll vs ws os]

end

namespace Tree

variable {vs ws : List Value}

/-- **Values cannot change structure.** With two lists of values of one length, none of them a
node, a tree without calls fails with the same error for both. Or it is rendered for both to
documents of one shape, which fill the holes of one outline with the texts of the values, and
every reference has a value. -/
theorem render_dom_shape {t : Tree ω Node} (ht : t.CallFree) (hl : vs.length = ws.length)
    (hv : ∀ v ∈ vs, v.node? = none) (hw : ∀ w ∈ ws, w.node? = none) :
    (∃ e, t.render .dom vs = .fail e ∧ t.render .dom ws = .fail e) ∨
      ∃ m n, t.render .dom vs = .succeed (.ready m) ∧ t.render .dom ws = .succeed (.ready n) ∧
        m.shape = n.shape ∧ m = t.outline.fill vs ∧ n = t.outline.fill ws ∧
        ∀ i ∈ t.references, i < vs.length := by
  rw [render_dom_eq hv t ht, render_dom_eq hw t ht, ← hl]
  rcases hrefs : checkReferences vs.length t.references with e | _
  · exact .inl ⟨e, rfl, rfl⟩
  · exact .inr ⟨_, _, rfl, rfl, Outline.shape_fill vs ws t.outline, rfl, rfl,
      lt_of_checkReferences hrefs⟩

/-- Literal markup, a reference among texts and one in an attribute value. -/
def notice : Tree Unit Node :=
  .element "p" [("class", .single (.text "x")), ("title", .parts [.text "to ", .reference 1])]
    [.text "<b>Hi</b>, ", .reference 0, .text "<!--[[[0]]]-->"]

/-- Strings that end an element or a quote, open another, or look like a marker. -/
def hostileValues : List Value := [.str "</p><i>[[[1]]]", .str "\"><b"]

/-- The hostile strings give a document of the same shape as values without a markup character, and
they stand in it as they are. -/
theorem render_notice :
    notice.CallFree ∧ hostileValues.length = [Value.null, .int 3].length ∧
      (∀ v ∈ hostileValues, v.node? = none) ∧ (∀ w ∈ [Value.null, .int 3], w.node? = none) ∧
      (notice.outline.fill hostileValues =
        .element "p" [("class", "x"), ("title", "to \"><b")]
          [.element "b" [] [.text "Hi"], .text ", ", .text "</p><i>[[[1]]]",
            .comment "[[[0]]]"]) ∧
      (notice.outline.fill [.null, .int 3] =
        .element "p" [("class", "x"), ("title", "to 3")]
          [.element "b" [] [.text "Hi"], .text ", ", .text "", .comment "[[[0]]]"]) ∧
      ∃ m n, notice.render .dom hostileValues = .succeed (.ready m) ∧
        notice.render .dom [.null, .int 3] = .succeed (.ready n) ∧ m.shape = n.shape ∧
        m = notice.outline.fill hostileValues ∧ n = notice.outline.fill [.null, .int 3] ∧
        ∀ i ∈ notice.references, i < hostileValues.length := by
  have ht : notice.CallFree := ⟨trivial, trivial, trivial, trivial⟩
  have hv : ∀ v ∈ hostileValues, v.node? = none := by simp [hostileValues, Value.node?]
  have hw : ∀ w ∈ [Value.null, .int 3], w.node? = none := by simp [Value.node?]
  have hl : hostileValues.length = [Value.null, .int 3].length := rfl
  refine ⟨ht, hl, hv, hw, by decide +kernel, by decide +kernel,
    (render_dom_shape ht hl hv hw).resolve_left ?_⟩
  rintro ⟨e, he, -⟩
  rw [render_dom_eq hv notice ht] at he
  cases he

end Tree

end MarkupTemplate
