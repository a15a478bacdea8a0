import MarkupTemplate.Proofs.Markup.Enclosing
import MarkupTemplate.Proofs.Markup.Labels
import MarkupTemplate.Proofs.Markup.Preface
import MarkupTemplate.Proofs.Rendering.References

/-!
# Which markup compiles

Markup is read inside a container, which is put around it. If no tag of the markup is one of the
container, this does not decide about anything: the markup has a parse error inside exactly if it
has one by itself, and the container has the nodes of the markup. A byte-order mark at the front
is dropped by itself and is text inside, which is the only difference in the nodes.

What can be read then compiles, unless an element whose name begins with an upper-case letter has
no component. The first such element in document order is reported.

## Main definitions

* `MarkupTemplate.Dom.Node.names` — the names of all elements in document order.
* `MarkupTemplate.Tree.restoreMark` — the nodes with the byte-order mark of the markup.

## Main results

* `MarkupTemplate.Tree.mirrors_parse_wrap` — reading inside the container and alone.
* `MarkupTemplate.Tree.ofMarkup_eq` — which markup compiles, and the error if it does not.
-/

namespace MarkupTemplate

open Dom Text

variable {ω ο : Type}

namespace Dom.Node

/-- The name of an element. -/
def name? : Node → Option String
  | .element name _ _ => some name
  | _ => none

/-- The names of all elements in nodes, in document order. -/
def names (ns : List Node) : List String := (labelsAll ns).filterMap name?

theorem names_cons (n : Node) (ns : List Node) :
    names (n :: ns) = n.labels.filterMap name? ++ names ns := List.filterMap_append

/-- Text in front is no element. -/
theorem names_prependText (front : List Char) : (ns : List Node) →
    names (prependText front ns) = names ns
  | [] => rfl
  | .text _ :: _ => rfl
  | .element .. :: _ => rfl
  | .comment _ :: _ => rfl
  | .doctype _ :: _ => rfl
  | .instruction .. :: _ => rfl
  | .fragment _ :: _ => rfl

end Dom.Node

/-- The elements that are read have the names of tags, and no fragments are read. -/
theorem Markup.names_parseChars {q : String → Prop} {mode : Mode} {cs : List Char}
    (ht : ∀ t ∈ (tokens (dropByteOrderMark cs)).1, ∀ name ∈ t.tagName?, q (localName name))
    {nodes : List Node} (h : parseChars mode cs = .ok nodes) :
    ∀ l ∈ Node.labelsAll nodes, l.kind ≠ .fragment ∧ ∀ name ∈ l.name?, q name := by
  refine labels_parseChars (q := fun _ => True) (fun s _ => ⟨nofun, nofun⟩) (fun t hm => ?_) h
  have helement {name : List Char} (hn : t.tagName? = some name)
      (attrs : KeyedList String String) :
      (Node.element (localName name) attrs []).kind ≠ .fragment ∧
        ∀ name' ∈ (Node.element (localName name) attrs []).name?, q name' :=
    ⟨nofun, fun name' hm' => by cases hm'; exact ht t hm name hn⟩
  cases t with
  | startTag | emptyTag => exact helement rfl _
  | endTag => trivial
  | text | reference | cdata => exact fun _ _ => trivial
  | comment | doctype | instruction => exact ⟨nofun, nofun⟩
  | declaration => trivial

namespace Tree

/-! ### The container does not show -/

/-- The nodes of markup as they are read inside the container. A byte-order mark is text there. -/
def restoreMark (markup : String) (nodes : List Node) : List Node :=
  if (prepare markup).toList.head? = some '\uFEFF' then Node.prependText ['\uFEFF'] nodes else nodes

theorem not_infix_prepare {markup : String} (h : ¬ containerTag.toList <:+: markup.toList) :
    ¬ containerTag.toList <:+: (prepare markup).toList := by
  intro hi
  rw [prepare, String.toList_ofList] at hi
  have hraw : containerTag.toList <:+: trim markup.toList :=
    infix_of_infix_escapeAmpersands (x := 'D') (by decide) (by decide) hi
  exact h (hraw.trans (isInfix_trim markup.toList))

/-- Behind the start tag of the container, the markup is read inside it up to its end tag. -/
theorem parse_wrap_eq (markup : String) :
    Markup.parse .strict (wrap markup) =
      Markup.resume (wrap markup).toList .strict (Markup.Builder.empty.nest containerTag)
        ((prepare markup).toList ++ ('<' :: '/' :: containerTag.toList ++ ['>'])) := by
  have hw := toList_wrap_between markup
  rw [Markup.parse, Markup.parseChars_eq_resume, dropByteOrderMark_wrap]
  generalize (wrap markup).toList = whole at hw ⊢
  subst hw
  rw [Markup.resume_startTag isTagName_containerTag.writable_nil Markup.readable_nil rfl,
    String.ofList_toList]
  rfl

/-- A text without the name of a tag has no tag of this name. -/
theorem spares_of_not_infix {tag : String} {cs : List Char} (h : ¬ tag.toList <:+: cs) :
    ∀ t ∈ (Markup.tokens (Markup.dropByteOrderMark cs)).1, t.Spares tag := by
  rintro t ht name hname rfl
  obtain ⟨c, ds, rest, hs, hr⟩ := Markup.exists_of_mem_tokens ht
  rw [Markup.localName, String.toList_ofList] at h
  refine h ((Markup.afterFirst_suffix ':' name).isInfix.trans ?_)
  exact (Markup.infix_of_readToken hr hname).trans ((List.suffix_cons c ds).trans
    (hs.trans (Markup.dropByteOrderMark_suffix _))).isInfix

/-- The tags of markup are not those of the container. -/
def SparesContainer (markup : String) : Prop :=
  ∀ t ∈ (Markup.tokens (Markup.dropByteOrderMark (prepare markup).toList)).1,
    t.Spares containerTag

/-- **The container does not show**: markup without a tag of it is accepted inside exactly if it
is accepted alone, with the same nodes. -/
theorem mirrors_parse_wrap {markup : String} (h : SparesContainer markup) :
    Markup.Mirrors (fun nodes => [.element containerTag [] (restoreMark markup nodes)])
      (Markup.parse .strict (prepare markup)) (Markup.parse .strict (wrap markup)) := by
  have hn := isTagName_containerTag
  have hempty (cs : List Char) : (Markup.Builder.empty.addText cs).Apart containerTag :=
    ⟨rfl, nofun⟩
  rw [SparesContainer] at h
  rw [parse_wrap_eq, Markup.parse, Markup.parseChars_eq_resume]
  by_cases hmark : (prepare markup).toList.head? = some '\uFEFF'
  · obtain ⟨cs, hcs⟩ := List.head?_eq_some_iff.mp hmark
    have hdrop : Markup.dropByteOrderMark (prepare markup).toList = cs := by
      rw [hcs]
      rfl
    have hrestore : restoreMark markup = Node.prependText ['\uFEFF'] := by
      funext nodes
      rw [restoreMark, if_pos hmark]
    -- Inside, the mark is pending text when the rest is read.
    have htext (whole rest : List Char) :
        Markup.resume whole .strict (Markup.Builder.empty.nest containerTag) ('\uFEFF' :: rest) =
          Markup.resume whole .strict
            ((Markup.Builder.empty.addText ['\uFEFF']).nest containerTag) rest :=
      Markup.resume_text (List.forall_mem_singleton.mpr rfl) rest
    have hfront : Markup.Mirrors (Node.prependText ['\uFEFF'])
        (Markup.resume cs .strict .empty cs)
        (Markup.resume cs .strict (Markup.Builder.empty.addText ['\uFEFF']) cs) :=
      Markup.resume_addText (by simp) cs cs cs .strict
    rw [hdrop] at h ⊢
    have hinside := Markup.resume_nest hn cs (wrap markup).toList (hempty ['\uFEFF']) h
    rw [hrestore, hcs, List.cons_append, htext]
    exact hfront.trans hinside
  · have hdrop := Markup.dropByteOrderMark_of_head? hmark
    have hsame : restoreMark markup = fun nodes => nodes := by
      funext nodes
      rw [restoreMark, if_neg hmark]
    rw [hdrop] at h ⊢
    rw [hsame]
    exact Markup.resume_nest hn _ _ (hempty []) h

/-! ### Components that are missing -/

/-- Whether an element of this name is a call for which nothing is registered. -/
def unresolved (registry : Registry ω ο) (name : String) : Bool :=
  isComponentName name && (registry.get? name).isNone

/-- Fails with the first call for which nothing is registered. -/
def checkNames (registry : Registry ω ο) (names : List String) : Except Error Unit :=
  Except.firstError (unresolved registry) .unresolvedComponent names

/-- A label of a node that markup without the name of the container may have. -/
def IsForeign (l : Node) : Prop := l.kind ≠ .fragment ∧ ∀ name ∈ l.name?, name ≠ containerTag

variable {registry : Registry ω ο}

theorem checkNames_cons (name : String) (names : List String) :
    checkNames registry (name :: names) =
      if unresolved registry name then .error (.unresolvedComponent name)
      else checkNames registry names := by
  rw [checkNames, Except.firstError, List.find?_cons]
  cases unresolved registry name <;> rfl

theorem ofElement_eq {name : String} (hname : name ≠ containerTag)
    (attrs : KeyedList String String) (children : Except Error (List (Tree ω ο))) :
    (ofElement registry name attrs children).map (fun _ => ()) =
      if unresolved registry name then .error (.unresolvedComponent name)
      else children.map fun _ => () := by
  have hresolve : registry.resolve? name = registry.get? name := by
    rw [Registry.resolve?]
    split
    · rename_i c hc
      exact hc.symm
    · rename_i hc
      rw [if_neg hname, hc]
  rw [ofElement, unresolved]
  by_cases hcall : isComponentName name = true
  · rw [if_pos hcall, hcall, Bool.true_and, resolve, hresolve]
    cases registry.get? name <;> cases children <;> rfl
  · rw [if_neg hcall, Bool.eq_false_iff.mpr hcall, Bool.false_and]
    cases children <;> rfl

mutual

/-- A node has trees unless a call in it is not registered. -/
theorem ofNode_eq : (n : Node) → (∀ l ∈ n.labels, IsForeign l) →
    (ofNode registry n).map (fun _ => ()) = checkNames registry (n.labels.filterMap Node.name?)
  | .text _, _ => rfl
  | .comment _, _ => rfl
  | .doctype _, _ => rfl
  | .instruction .., _ => rfl
  | .fragment _, h => absurd rfl (h _ List.mem_cons_self).1
  | .element name attrs children, h => by
    obtain ⟨hl, hchildren⟩ := List.forall_mem_cons.mp h
    have hmap : ∀ x : Except Error (Tree ω ο), (x.map fun t => [t]).map (fun _ => ()) =
        x.map fun _ => () := fun x => by cases x <;> rfl
    rw [ofNode, hmap, ofElement_eq (hl.2 name rfl), ofNodes_eq children hchildren]
    exact (checkNames_cons name _).symm

/-- Nodes have trees unless a call in them is not registered. -/
theorem ofNodes_eq : (ns : List Node) → (∀ l ∈ Node.labelsAll ns, IsForeign l) →
    (ofNodes registry ns).map (fun _ => ()) = checkNames registry (Node.names ns)
  | [], _ => rfl
  | n :: ns, h => by
    obtain ⟨hn, hns⟩ := List.forall_mem_append.mp h
    have hmap : (ofNodes registry (n :: ns)).map (fun _ => ()) =
        (ofNode registry n).map (fun _ => ()) >>= fun _ =>
          (ofNodes registry ns).map fun _ => () := by
      rw [ofNodes]
      cases ofNode registry n <;> cases ofNodes registry ns <;> rfl
    rw [hmap, ofNode_eq n hn, ofNodes_eq ns hns, Node.names_cons]
    exact (Except.firstError_append _ _ _ _).symm

end

/-- There is a component for the container in any case. -/
theorem exists_resolve_containerTag (registry : Registry ω ο) :
    ∃ c, resolve registry containerTag = .ok c := by
  rw [resolve, Registry.resolve?]
  cases registry.get? containerTag with
  | some c => exact ⟨c, rfl⟩
  | none => exact ⟨_, rfl⟩

theorem ofForest_of_error {ns : List Node} {error : Error}
    (h : ofNodes registry ns = .error error) :
    ofForest registry [.element containerTag [] ns] = .error error := by
  obtain ⟨c, hc⟩ := exists_resolve_containerTag registry
  have hmany : ofElement registry containerTag [] (ofNodes registry ns) = .error error := by
    rw [ofElement_containerTag hc, h]
    rfl
  rcases ns with _ | ⟨n, _ | ⟨m, ns⟩⟩
  · exact hmany
  · have hn : ofNode registry n = .error error := by
      rw [ofNodes] at h
      cases hn : ofNode registry n with
      | error error' =>
        rw [hn] at h
        cases h
        rfl
      | ok ts =>
        rw [hn] at h
        cases h
    show ofRoot registry n = .error error
    rw [ofRoot, hn]
    rfl
  · exact hmany

/-- The tree of nodes in a container is there if all calls in them are registered. -/
theorem ofForest_eq (registry : Registry ω ο) (ns : List Node)
    (h : ∀ l ∈ Node.labelsAll ns, IsForeign l) :
    (ofForest registry [.element containerTag [] ns]).map (fun _ => ()) =
      checkNames registry (Node.names ns) := by
  rw [← ofNodes_eq ns h]
  cases hns : ofNodes registry ns with
  | error error =>
    rw [ofForest_of_error hns]
    rfl
  | ok ts =>
    obtain ⟨c, hc⟩ := exists_resolve_containerTag registry
    obtain ⟨root, hr, -⟩ := exists_ofForest hc hns
    rw [hr]
    rfl

/-! ### Compiling -/

/-- What markup without tags of the container is read as has other names. -/
theorem isForeign_of_parse {markup : String} (h : SparesContainer markup)
    {nodes : List Node} (hp : Markup.parse .strict (prepare markup) = .ok nodes) :
    ∀ l ∈ Node.labelsAll nodes, IsForeign l :=
  Markup.names_parseChars (q := (· ≠ containerTag)) h hp

/-- The labels of nodes keep what a text keeps behind a byte-order mark. -/
theorem labels_restoreMark {P : Node → Prop} (hmark : P (.text (String.ofList ['\uFEFF'])))
    (hfront : ∀ s, P (.text s) → P (.text (String.ofList ['\uFEFF'] ++ s))) {markup : String}
    {nodes : List Node} (h : ∀ l ∈ Node.labelsAll nodes, P l) :
    ∀ l ∈ Node.labelsAll (restoreMark markup nodes), P l := by
  rw [restoreMark]
  split
  · rw [Node.prependText.eq_def]
    split
    · obtain ⟨hs, hns⟩ := List.forall_mem_cons.mp h
      exact List.forall_mem_cons.mpr ⟨hfront _ hs, hns⟩
    · exact List.forall_mem_cons.mpr ⟨hmark, h⟩
  · exact h

theorem isForeign_restoreMark {markup : String} {nodes : List Node}
    (h : ∀ l ∈ Node.labelsAll nodes, IsForeign l) :
    ∀ l ∈ Node.labelsAll (restoreMark markup nodes), IsForeign l :=
  labels_restoreMark ⟨nofun, nofun⟩ (fun _ _ => ⟨nofun, nofun⟩) h

theorem names_restoreMark (markup : String) (nodes : List Node) :
    Node.names (restoreMark markup nodes) = Node.names nodes := by
  rw [restoreMark]
  split
  · exact Node.names_prependText _ nodes
  · rfl

/-- **Which markup compiles.** Markup that does not name the container fails with a parse error
exactly if it is no document by itself, blanks at its ends and ampersands apart. A document
compiles unless a name in it begins with an upper-case letter and is not registered, and the
first such name in document order is the error. -/
theorem ofMarkup_eq (registry : Registry ω ο) {markup : String}
    (h : ¬ containerTag.toList <:+: markup.toList) :
    ((∃ error, ofMarkup registry markup = .error (.parse error)) ↔
        ∃ error, Markup.parse .strict (prepare markup) = .error error) ∧
      ∀ nodes, Markup.parse .strict (prepare markup) = .ok nodes →
        match (Node.names nodes).find? (unresolved registry) with
        | some name => ofMarkup registry markup = .error (.unresolvedComponent name)
        | none => ∃ t, ofMarkup registry markup = .ok t := by
  have hspares : SparesContainer markup := spares_of_not_infix (not_infix_prepare h)
  have hmirror := mirrors_parse_wrap hspares
  rw [ofMarkup]
  cases hp : Markup.parse .strict (prepare markup) with
  | error error =>
    rw [hp] at hmirror
    obtain ⟨error', he⟩ := hmirror
    rw [he]
    exact ⟨⟨fun _ => ⟨error, rfl⟩, fun _ => ⟨error', rfl⟩⟩, fun ns hn => by cases hn⟩
  | ok nodes =>
    rw [hp] at hmirror
    have hw : Markup.parse .strict (wrap markup) =
      .ok [.element containerTag [] (restoreMark markup nodes)] := hmirror
    have hcheck := ofForest_eq registry (restoreMark markup nodes)
      (isForeign_restoreMark (isForeign_of_parse hspares hp))
    rw [names_restoreMark, checkNames, Except.firstError] at hcheck
    rw [hw]
    cases hf : (Node.names nodes).find? (unresolved registry) with
    | some name =>
      rw [hf] at hcheck
      have herror := Except.eq_error_of_map hcheck
      refine ⟨iff_of_false ?_ ?_, fun ns hn => ?_⟩
      · rintro ⟨error, he⟩
        cases herror.symm.trans he
      · rintro ⟨error, he⟩
        cases he
      · cases hn
        rw [hf]
        exact herror
    | none =>
      rw [hf] at hcheck
      obtain ⟨t, ht, -⟩ := Except.map_eq_ok_iff.mp hcheck
      refine ⟨iff_of_false ?_ ?_, fun ns hn => ?_⟩
      · rintro ⟨error, he⟩
        cases ht.symm.trans he
      · rintro ⟨error, he⟩
        cases he
      · cases hn
        rw [hf]
        exact ⟨t, ht⟩

/-- Of two calls that are not registered the first is reported. -/
theorem ofMarkup_unregistered :
    ¬ containerTag.toList <:+: "<p>1 & 2 <Card/><b><Deck/></b></p> ".toList ∧
      Markup.parse .strict (prepare "<p>1 & 2 <Card/><b><Deck/></b></p> ") =
        .ok [.element "p" [] [.text "1 & 2 ", .element "Card" [] [],
          .element "b" [] [.element "Deck" [] []]]] ∧
      ofMarkup (.empty : Registry Unit String) "<p>1 & 2 <Card/><b><Deck/></b></p> " =
        .error (.unresolvedComponent "Card") := by
  have h : ¬ containerTag.toList <:+: "<p>1 & 2 <Card/><b><Deck/></b></p> ".toList := by decide
  have hp : Markup.parse .strict (prepare "<p>1 & 2 <Card/><b><Deck/></b></p> ") =
      .ok [.element "p" [] [.text "1 & 2 ", .element "Card" [] [],
        .element "b" [] [.element "Deck" [] []]]] := by decide +kernel
  have herror := (ofMarkup_eq (.empty : Registry Unit String) h).2 _ hp
  have hf : (Node.names [.element "p" [] [.text "1 & 2 ", .element "Card" [] [],
      .element "b" [] [.element "Deck" [] []]]]).find?
        (unresolved (.empty : Registry Unit String)) = some "Card" := by decide +kernel
  rw [hf] at herror
  exact ⟨h, hp, herror⟩

end Tree

end MarkupTemplate
