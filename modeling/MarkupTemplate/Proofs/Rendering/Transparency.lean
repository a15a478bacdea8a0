import MarkupTemplate.Proofs.Dom.Appending
import MarkupTemplate.Proofs.Markup.Delivery
import MarkupTemplate.Proofs.Rendering.Outputs

/-!
# Fragments do not show

A fragment carries nodes to their parent and is dissolved there. So no fragment stays inside a tree
that is built by changes of flat nodes, read from markup, or rendered with flat values by components
that answer with flat nodes.

## Main definitions

* `MarkupTemplate.Dom.Made` — nodes made of given ones by changes and by the node backend.

## Main results

* `MarkupTemplate.Dom.Made.flat`, `MarkupTemplate.Markup.flat_of_parse`,
  `MarkupTemplate.Tree.flat_of_render` — where flat nodes come from.
* `MarkupTemplate.Tree.fragments_transparent` — fragments do not show.
-/

namespace MarkupTemplate

open Dom

/-! ### Reading -/

namespace Dom.Node

/-- The label of a node that has its part in flatness: no fragment, and attributes with distinct
names. -/
def IsFlatLabel : Node → Prop
  | element _ attrs _ => attrs.keys.Nodup
  | fragment _ => False
  | _ => True

mutual

theorem flat_of_labels : (n : Node) → (∀ l ∈ n.labels, l.IsFlatLabel) →
    n.kind ≠ .fragment ∧ n.Flat
  | element name attrs cs, h => by
    obtain ⟨hattrs, hcs⟩ := List.forall_mem_cons.mp h
    exact ⟨nofun, hattrs, flatAll_of_labelsAll cs hcs⟩
  | fragment cs, h => (h (.fragment []) List.mem_cons_self).elim
  | text _, _ => ⟨nofun, trivial⟩
  | comment _, _ => ⟨nofun, trivial⟩
  | doctype _, _ => ⟨nofun, trivial⟩
  | instruction .., _ => ⟨nofun, trivial⟩

theorem flatAll_of_labelsAll : (ns : List Node) → (∀ l ∈ labelsAll ns, l.IsFlatLabel) →
    FlatAll ns
  | [], _ => trivial
  | n :: ns, h => by
    obtain ⟨hn, hns⟩ := List.forall_mem_append.mp h
    exact ⟨flat_of_labels n hn, flatAll_of_labelsAll ns hns⟩

end

end Dom.Node

namespace Markup

theorem makes_isFlatLabel {cs : List Char} {t : Token} (h : t ∈ (tokens cs).1) :
    t.Makes Node.IsFlatLabel fun _ => True := by
  have hfrom := readFrom_of_mem_tokens h
  cases t with
  | startTag name attrs | emptyTag name attrs =>
    obtain ⟨content, -, hr⟩ := hfrom
    exact nodup_keys_of_readContent hr
  | text | reference | cdata => exact fun _ _ => trivial
  | endTag | declaration | comment | doctype | instruction => trivial

/-- The nodes that are read are flat, and none is a fragment. -/
theorem flat_of_parse {mode : Mode} {markup : String} {nodes : List Node}
    (h : parse mode markup = .ok nodes) : Node.FlatAll nodes :=
  Node.flatAll_of_labelsAll nodes
    (labels_parseChars (fun _ _ => trivial) (fun _ ht => makes_isFlatLabel ht) h)

end Markup

/-! ### The node backend -/

namespace Backend

theorem flat_nodeOfMarkup (markup : String) : (nodeOfMarkup markup).Flat := by
  rw [nodeOfMarkup]
  split
  · rename_i n h
    exact (Markup.flat_of_parse h).1.2
  · rename_i ns _ h
    exact Node.flat_ofList fun n hn => (Node.flatAll_iff.mp (Markup.flat_of_parse h) n hn).2
  · trivial

theorem flat_nodeOfValue {v : Value} (h : ∀ n, v = .node n → n.Flat) : (nodeOfValue v).Flat := by
  cases v with
  | node n => exact h n rfl
  | _ => trivial

theorem flat_nodeOfElement {children : Node} (h : children.Flat) (tag : String)
    (attrs : List (String × String)) : (nodeOfElement tag attrs children).Flat :=
  ⟨KeyedList.nodup_keys_ofPairs attrs, h.flatten⟩

/-- The operations of the node backend keep flatness. -/
theorem keeps_flat {values : List Value} (h : ∀ n, .node n ∈ values → n.Flat) :
    dom.Keeps values Node.Flat where
  static := flat_nodeOfMarkup
  value _ hv := flat_nodeOfValue fun n hn => h n (hn ▸ hv)
  element tag attrs _ ho := flat_nodeOfElement ho tag attrs
  join _ h := Node.flat_ofList h

end Backend

/-- The nodes that are made of given ones, by fragments, by changes at any place, and by the
operations of the node backend. -/
inductive Dom.Made (given : Node → Prop) : Node → Prop
  | given {n : Node} (h : given n) : Made given n
  | ofList {ns : List Node} (h : ∀ n ∈ ns, Made given n) : Made given (.ofList ns)
  | edited {root : Node} (path : List Nat) {e : Edit} (hroot : Made given root)
      (hchild : ∀ c, e.child? = some c → Made given c) : Made given (root.editAt path e)
  | removed {p c p' : Node} {index : Nat} (hp : Made given p)
      (h : p.remove index = .ok (c, p')) : Made given c
  | static (markup : String) : Made given (Backend.dom.static markup)
  | value {v : Value} (h : ∀ n, v = .node n → Made given n) : Made given (Backend.dom.value v)
  | element (tag : String) (attrs : List (String × String)) {children : Node}
      (h : Made given children) : Made given (Backend.dom.element tag attrs children)
  | join {ns : List Node} (h : ∀ n ∈ ns, Made given n) : Made given (Backend.dom.join ns)

/-- What is made of flat nodes is flat. -/
theorem Dom.Made.flat {n : Node} (h : Made Node.Flat n) : n.Flat := by
  induction h with
  | given h => exact h
  | ofList _ ih => exact Node.flat_ofList ih
  | edited path _ _ ihroot ihchild => exact ihroot.editAt path ihchild
  | removed _ hr ih => exact ih.remove hr
  | static markup => exact Backend.flat_nodeOfMarkup markup
  | value _ ih => exact Backend.flat_nodeOfValue ih
  | element tag attrs _ ih => exact Backend.flat_nodeOfElement ih tag attrs
  | join _ ih => exact Node.flat_ofList ih

namespace Tree

variable {ω : Type}

/-- What is rendered with flat values, by components that answer with flat nodes, is flat. -/
theorem flat_of_render {values : List Value} {t : Tree ω Node}
    (hvalues : ∀ n, .node n ∈ values → n.Flat)
    (ht : t.CallsOnly (Component.Answers values Node.Flat fun _ => True)) {n : Node}
    (hn : (t.render .dom values).settle.2 = .ready n ∨
      (t.render .dom values).settle.2 = .polled (.value n)) : n.Flat := by
  have hend : (t.render .dom values).toJob.EndsIn Node.Flat fun _ => True := by
    cases hr : (t.render .dom values).result with
    | ok r =>
      rw [Attempt.endsIn_iff_of_result hr]
      exact endsIn_render (Backend.keeps_flat hvalues) t ht hr
    | error error =>
      rw [Attempt.toJob, hr]
      trivial
  exact ((Attempt.endsIn_iff_settle _).mp hend).1 n hn

/-- **Fragments do not show.** What is made of flat nodes is flat, what is read is flat, and so is
what is rendered with flat values by components that answer with flat nodes. A node that can have
children gets an appended node itself as its last child, or of a fragment the nodes that are reached
from it through fragments only, in the order of their paths, and the markup and the text of the
appended node are put behind its own. A change that fails leaves the tree as it is. -/
theorem fragments_transparent :
    (∀ n, Made Node.Flat n → n.Flat) ∧
      (∀ mode markup nodes, Markup.parse mode markup = .ok nodes → Node.FlatAll nodes) ∧
      (∀ (values : List Value) (t : Tree ω Node), (∀ n, .node n ∈ values → n.Flat) →
        t.CallsOnly (Component.Answers values Node.Flat fun _ => True) → ∀ n,
          (t.render .dom values).settle.2 = .ready n ∨
            (t.render .dom values).settle.2 = .polled (.value n) → n.Flat) ∧
      (∀ p c : Node, p.isParent = true → ∃ p', p.append c = .ok p' ∧
        p' = p.withChildren (p.children ++ c.flatten) ∧
        p'.children = p.children ++ c.flatten ∧
        p'.innerHtml = p.innerHtml ++ c.outerHtml ∧
        p'.textContent = p.textContent ++ c.textContent) ∧
      (∀ c : Node, c.kind ≠ .fragment → c.flatten = [c]) ∧
      (∀ c : Node, ∃ paths : List (List Nat), paths.Pairwise (· < ·) ∧
        (∀ path, path ∈ paths ↔ ∃ m, c.Through path m) ∧
        List.Forall₂ c.Through paths c.flatten) ∧
      ∀ (root n : Node) (path : List Nat) (e : Edit) (error : EditError),
        root.at? path = some n → (e.perform n).1 = .error error → root.editAt path e = root :=
  ⟨fun _ => Made.flat, fun _ _ _ => Markup.flat_of_parse,
    fun _ _ hvalues ht _ => flat_of_render hvalues ht, fun _ c hp => Node.exists_append hp c,
    fun _ => Node.flatten_of_kind,
    fun c => ⟨c.openPaths, c.pairwise_openPaths, fun _ => Node.mem_openPaths_iff,
      c.forall₂_openPaths⟩,
    fun _ _ _ _ _ => Node.editAt_of_error⟩

/-- A component that puts a mark behind its children, in its third poll. -/
def marker : Component Unit Node :=
  ⟨"Marked", 1, fun props => .succeed <| .pending <|
    (Job.settled [] (.ok (.ofList [props.children, .text "!"]))).delay 2⟩

theorem answers_marker (values : List Value) :
    marker.Answers values Node.Flat fun _ => True := by
  intro props hchildren _
  exact Node.flat_ofList (List.forall_mem_cons.mpr ⟨hchildren, by simp [Node.Flat]⟩)

theorem callsOnly_marker {values : List Value} :
    (element "div" [] [.reference 0, .component marker [] [.reference 0]]).CallsOnly
      (Component.Answers values Node.Flat fun _ => True) := by
  have hleaf : (reference 0 : Tree Unit Node).CallsOnly
      (Component.Answers values Node.Flat fun _ => True) := forall_mem_subtrees.mpr ⟨nofun, nofun⟩
  have hcall : (component marker [] [.reference 0]).CallsOnly
      (Component.Answers values Node.Flat fun _ => True) :=
    callsOnly_component.mpr ⟨answers_marker values, List.forall_mem_singleton.mpr hleaf⟩
  exact callsOnly_element.mpr
    (List.forall_mem_cons.mpr ⟨hleaf, List.forall_mem_singleton.mpr hcall⟩)

theorem fragments_transparent_nested :
    let items : Node := .fragment [.text "b", .fragment [.element "i" [] [], .fragment []]]
    let list : Node := .fragment [.element "i" [] [], .text "x"]
    let tree : Tree Unit Node :=
      .element "div" [] [.reference 0, .component marker [] [.reference 0]]
    ¬ items.Flat ∧ list.Flat ∧
      (∃ p', (Node.element "p" [] [.text "a"]).append items = .ok p' ∧
        p'.children = [.text "a", .text "b", .element "i" [] []] ∧
        p'.innerHtml = "a" ++ items.outerHtml ∧ items.outerHtml = "b<i></i>") ∧
      (∃ n, (tree.render .dom [.node list]).settle.2 = .polled (.value n) ∧ n.Flat) ∧
      list.editAt [0] (.remove 1) = list := by
  intro items list tree
  have hlist : list.Flat := by decide
  have hvalues : ∀ n, .node n ∈ [Value.node list] → n.Flat := fun n hn => by
    cases List.mem_singleton.mp hn
    exact hlist
  obtain ⟨-, -, hrender, happend, -, -, hedit⟩ := @fragments_transparent Unit
  obtain ⟨p', hp', -, hchildren, hinner, -⟩ := happend (.element "p" [] [.text "a"]) items rfl
  exact ⟨by decide, hlist, ⟨p', hp', hchildren, hinner, by decide⟩,
    ⟨_, rfl, hrender [.node list] tree hvalues callsOnly_marker _ (.inr rfl)⟩,
    hedit list (.element "i" [] []) [0] (.remove 1) _ rfl rfl⟩

end Tree

end MarkupTemplate
