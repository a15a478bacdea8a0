import MarkupTemplate.Proofs.Rendering.Calls
import MarkupTemplate.Proofs.Template.Subtrees

/-!
# Rendering at once

Where every component answers at once, nothing is ever pending: a tree fails, or its output is
there. Rendered to nodes, a tree then amounts to a list of nodes, without fragments, and siblings
to their lists in a row (`MarkupTemplate.Tree.nodesAll`). Elements and components see no more of
their children than this list.

## Main definitions

* `MarkupTemplate.Registry.Prompt`, `MarkupTemplate.Tree.Prompt` — components that answer at once.
* `MarkupTemplate.Tree.nodes`, `MarkupTemplate.Tree.nodesAll` — the nodes of trees.

## Main results

* `MarkupTemplate.Tree.prompt_render` — prompt trees are rendered at once.
* `MarkupTemplate.Tree.render_dom_element`, `MarkupTemplate.Tree.render_dom_component`
* `MarkupTemplate.Tree.prompt_ofMarkup`, `MarkupTemplate.Tree.prompt_fold`
-/

namespace MarkupTemplate

open Dom

variable {ω ο α β : Type}

/-! ### Fragments dissolved -/

namespace Dom.Node

theorem flattenAll_append (ms ns : List Node) :
    flattenAll (ms ++ ns) = flattenAll ms ++ flattenAll ns := by
  induction ms with
  | nil => rfl
  | cons m ms ih => rw [List.cons_append, flattenAll, flattenAll, ih, List.append_assoc]

mutual

/-- Nodes with dissolved fragments have no fragments. -/
theorem flattenAll_flatten : (n : Node) → flattenAll n.flatten = n.flatten
  | element .. => rfl
  | text _ => rfl
  | comment _ => rfl
  | doctype _ => rfl
  | instruction .. => rfl
  | fragment cs => flattenAll_flattenAll cs

theorem flattenAll_flattenAll : (ns : List Node) → flattenAll (flattenAll ns) = flattenAll ns
  | [] => rfl
  | n :: ns => by
    rw [flattenAll, flattenAll_append, flattenAll_flatten n, flattenAll_flattenAll ns]

end

theorem writeAll_append (layout : Layout) (depth : Nat) (ms ns : List Node) :
    writeAll layout depth (ms ++ ns) = writeAll layout depth ms ++ writeAll layout depth ns := by
  induction ms with
  | nil => exact String.empty_append.symm
  | cons m ms ih => rw [List.cons_append, writeAll, writeAll, ih, String.append_assoc]

mutual

/-- A node is written as the nodes are that it amounts to. -/
theorem writeAll_flatten (layout : Layout) (depth : Nat) : (n : Node) →
    writeAll layout depth n.flatten = n.write layout depth
  | element .. => String.append_empty
  | text _ => String.append_empty
  | comment _ => String.append_empty
  | doctype _ => String.append_empty
  | instruction .. => String.append_empty
  | fragment cs => writeAll_flattenAll layout depth cs

theorem writeAll_flattenAll (layout : Layout) (depth : Nat) : (ns : List Node) →
    writeAll layout depth (flattenAll ns) = writeAll layout depth ns
  | [] => rfl
  | n :: ns => by
    rw [flattenAll, writeAll_append, writeAll_flatten layout depth n,
      writeAll_flattenAll layout depth ns, writeAll]

end

/-- The markup of a node shows only what is left when fragments are dissolved. -/
theorem outerHtml_eq_of_flatten {m n : Node} (h : m.flatten = n.flatten) :
    m.outerHtml = n.outerHtml := by
  rw [outerHtml, outer, ← writeAll_flatten, h, writeAll_flatten]
  rfl

end Dom.Node

/-! ### Answers at once -/

/-- An attempt that fails or has its result at once. -/
def Attempt.Prompt (x : Attempt ω (Rendered ω α)) : Prop :=
  ∀ r, x.result = .ok r → ∃ a, r = .ready a

/-- A component that never lets wait. -/
def Component.Prompt (c : Component ω ο) : Prop := ∀ props, (c.render props).Prompt

/-- A registry of components that never let wait. -/
def Registry.Prompt (registry : Registry ω ο) : Prop :=
  ∀ name c, registry.get? name = some c → c.Prompt

theorem Component.prompt_container : (Component.container ω ο).Prompt := fun _ _ h =>
  ⟨_, (Except.ok.inj h).symm⟩

/-- The nodes of a result, none as long as it is pending. -/
def Rendered.nodes : Rendered ω Node → List Node
  | .ready n => n.flatten
  | .pending _ => []

namespace Tree

mutual

/-- A tree whose components never let wait. -/
def Prompt : Tree ω ο → Prop
  | text _ => True
  | reference _ => True
  | element _ _ children => PromptAll children
  | component c _ children => c.Prompt ∧ PromptAll children

/-- Trees whose components never let wait. -/
def PromptAll : List (Tree ω ο) → Prop
  | [] => True
  | t :: ts => t.Prompt ∧ PromptAll ts

end

variable (values : List Value)

/-- Siblings that are there at once are joined at once. -/
theorem joinRendered_map_ready (ns : List Node) :
    joinRendered .dom (ns.map Rendered.ready : List (Rendered ω Node)) =
      .ready (.fragment (Node.flattenAll ns)) := by
  rw [joinRendered, Rendered.joinAll, Rendered.readyAll?_eq_some_iff.mpr rfl]
  rfl

mutual

/-- A prompt tree is rendered at once. -/
theorem prompt_render : (t : Tree ω Node) → t.Prompt → (t.render .dom values).Prompt
  | text markup, _, r, h => ⟨_, (Except.ok.inj h).symm⟩
  | reference index, _, r, h => by
    obtain ⟨v, -, rfl⟩ := exists_of_render_reference h
    exact ⟨_, rfl⟩
  | element tag attrs children, ht, r, h => by
    obtain ⟨texts, rs, -, hrs, rfl⟩ := exists_of_render_element h
    obtain ⟨ns, rfl⟩ := exists_ready_of_renderAll children ht rs hrs
    rw [joinRendered_map_ready]
    exact ⟨_, rfl⟩
  | component c attrs children, ⟨hc, ht⟩, r, h => by
    obtain ⟨texts, wholes, rs, -, -, hrs, h⟩ := exists_of_render_component h
    obtain ⟨ns, rfl⟩ := exists_ready_of_renderAll children ht rs hrs
    rw [joinRendered_map_ready] at h
    exact hc _ r h

/-- Prompt siblings are rendered at once. -/
theorem exists_ready_of_renderAll : (ts : List (Tree ω Node)) → PromptAll ts →
    ∀ rs, (renderAll .dom values ts).result = .ok rs → ∃ ns : List Node, rs = ns.map .ready
  | [], _, rs, h => ⟨[], (Except.ok.inj h).symm⟩
  | t :: ts, ⟨ht, hts⟩, rs, h => by
    obtain ⟨r, us, hr, hus, rfl⟩ := exists_of_renderAll_cons h
    obtain ⟨n, rfl⟩ := prompt_render t ht r hr
    obtain ⟨ns, rfl⟩ := exists_ready_of_renderAll ts hts us hus
    exact ⟨n :: ns, rfl⟩

end

/-! ### The nodes of trees -/

/-- The nodes of a tree. -/
def nodes (t : Tree ω Node) : Attempt ω (List Node) := do
  let r ← t.render .dom values
  return r.nodes

/-- The nodes of siblings, in a row. -/
def nodesAll : List (Tree ω Node) → Attempt ω (List Node)
  | [] => pure []
  | t :: ts => do
    let ns ← t.nodes values
    let ms ← nodesAll ts
    return ns ++ ms

theorem nodesAll_eq (ts : List (Tree ω Node)) :
    nodesAll values ts = do
      let rs ← renderAll .dom values ts
      return rs.flatMap Rendered.nodes := by
  induction ts with
  | nil => rfl
  | cons t ts ih =>
    simp only [nodesAll, nodes, renderAll, ih, bind_assoc, pure_bind, List.flatMap_cons]

variable {values}

/-- What is done with joined siblings is done with a fragment of their nodes. -/
theorem bind_joinRendered_dom {ts : List (Tree ω Node)} (h : PromptAll ts)
    (k : Rendered ω Node → Attempt ω α) :
    (do let rs ← renderAll .dom values ts; k (joinRendered .dom rs)) =
      nodesAll values ts >>= fun ns => k (.ready (.fragment ns)) := by
  rw [nodesAll_eq, bind_assoc]
  rcases hx : renderAll .dom values ts with ⟨events, error | rs⟩
  · rfl
  · obtain ⟨ns, rfl⟩ := exists_ready_of_renderAll values ts h rs (by rw [hx])
    have hn : (ns.map Rendered.ready : List (Rendered ω Node)).flatMap Rendered.nodes =
        Node.flattenAll ns := by
      clear hx
      induction ns with
      | nil => rfl
      | cons n ns ih => rw [List.map_cons, List.flatMap_cons, ih]; rfl
    rw [Attempt.bind_mk_ok, Attempt.bind_mk_ok, joinRendered_map_ready, pure_bind, hn]

/-- The nodes of siblings have no fragments. -/
theorem flattenAll_of_nodesAll {ts : List (Tree ω Node)} {ns : List Node}
    (h : (nodesAll values ts).result = .ok ns) : Node.flattenAll ns = ns := by
  induction ts generalizing ns with
  | nil =>
    cases h
    rfl
  | cons t ts ih =>
    rw [nodesAll, Attempt.result_bind_eq_ok_iff] at h
    obtain ⟨ms, hm, h⟩ := h
    obtain ⟨us, hu, h⟩ := Attempt.result_bind_eq_ok_iff.mp h
    rw [nodes, Attempt.result_bind_eq_ok_iff] at hm
    obtain ⟨r, -, hm⟩ := hm
    cases h
    cases hm
    rw [Node.flattenAll_append, ih hu]
    cases r with
    | ready n => exact congrArg (· ++ us) n.flattenAll_flatten
    | pending _ => rfl

/-- An element has the nodes of its children. -/
theorem render_dom_element {children : List (Tree ω Node)} (h : PromptAll children)
    (tag : String) (attrs : Attributes) :
    (element tag attrs children).render .dom values = do
      let texts ← Attempt.ofExcept (resolveAttributes values attrs)
      let ns ← nodesAll values children
      return .ready (.element tag (KeyedList.ofPairs texts) ns) := by
  rw [render]
  refine bind_congr fun texts => (bind_joinRendered_dom h fun r =>
    pure (r.map (Backend.dom.element tag texts))).trans ?_
  rcases hx : nodesAll values children with ⟨events, error | ns⟩
  · rfl
  · have hn : Node.flattenAll ns = ns := flattenAll_of_nodesAll (by rw [hx])
    rw [Attempt.bind_mk_ok, Attempt.bind_mk_ok]
    simp only [Rendered.map, Backend.dom, Backend.nodeOfElement, Node.flatten, hn]

/-- A component is called with a fragment of the nodes of its children. -/
theorem render_dom_component {children : List (Tree ω Node)} (h : PromptAll children)
    (c : Component ω Node) (attrs : Attributes) :
    (component c attrs children).render .dom values = (do
      let texts ← Attempt.ofExcept (resolveAttributes values attrs)
      let wholes ← Attempt.ofExcept (wholeValues values attrs)
      let ns ← nodesAll values children
      c.render (.ofParts texts wholes (.fragment ns))) := by
  rw [render]
  exact bind_congr fun texts => bind_congr fun wholes => bind_joinRendered_dom h fun r =>
    r.andThen fun output => c.render (.ofParts texts wholes output)

/-! ### Where prompt trees come from -/

theorem promptAll_append {ts us : List (Tree ω ο)} (hts : PromptAll ts) (hus : PromptAll us) :
    PromptAll (ts ++ us) := by
  induction ts with
  | nil => exact hus
  | cons t ts ih => exact ⟨hts.1, ih hts.2⟩

theorem promptAll_of_forall_mem {ts : List (Tree ω ο)} (h : ∀ t ∈ ts, t.Prompt) :
    PromptAll ts := by
  induction ts with
  | nil => trivial
  | cons t ts ih =>
    obtain ⟨ht, hts⟩ := List.forall_mem_cons.mp h
    exact ⟨ht, ih hts⟩

section Registry

variable {registry : Registry ω ο}

theorem prompt_of_resolve (hr : registry.Prompt) {tag : String} {c : Component ω ο}
    (h : resolve registry tag = .ok c) : c.Prompt := by
  rw [resolve, Registry.resolve?] at h
  cases hg : registry.get? tag with
  | some d =>
    rw [hg] at h
    cases h
    exact hr tag _ hg
  | none =>
    rw [hg] at h
    dsimp only at h
    by_cases ht : tag = containerTag
    · rw [if_pos ht] at h
      cases h
      exact Component.prompt_container
    · rw [if_neg ht] at h
      cases h

theorem ascends_prompt (hr : registry.Prompt) : Ascends registry (Prompt (ω := ω) (ο := ο)) where
  text _ := trivial
  reference _ := trivial
  element _ _ _ hc := promptAll_of_forall_mem hc
  component _ _ _ _ h hc := ⟨prompt_of_resolve hr h, promptAll_of_forall_mem hc⟩

/-- Markup for components that never let wait makes a prompt tree. -/
theorem prompt_ofMarkup (hr : registry.Prompt) {markup : String} {t : Tree ω ο}
    (h : ofMarkup registry markup = .ok t) : t.Prompt := (ascends_prompt hr).of_ofMarkup h

end Registry

theorem promptAll_consMerged {t : Tree ω ο} {ts : List (Tree ω ο)} (ht : t.Prompt)
    (hts : PromptAll ts) : PromptAll (consMerged t ts) := by
  rw [consMerged.eq_def]
  split
  · exact ⟨trivial, hts.2⟩
  · exact ⟨ht, hts⟩

mutual

/-- Folding leaves prompt trees prompt. -/
theorem prompt_fold : (t : Tree ω ο) → t.Prompt → t.fold.Prompt
  | text _, _ => trivial
  | reference _, _ => trivial
  | element tag attrs children, h => by
    rw [fold, foldElement]
    split
    · trivial
    · exact promptAll_foldAll children h
  | component c attrs children, ⟨hc, h⟩ => ⟨hc, promptAll_foldAll children h⟩

theorem promptAll_foldAll : (ts : List (Tree ω ο)) → PromptAll ts → PromptAll (foldAll ts)
  | [], _ => trivial
  | t :: ts, ⟨ht, hts⟩ => promptAll_consMerged (prompt_fold t ht) (promptAll_foldAll ts hts)

end

end Tree

end MarkupTemplate
