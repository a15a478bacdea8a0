import MarkupTemplate.Proofs.Markup.Tags

/-!
# Reading leniently

A stretch of markup yields nodes if reading it, whatever stands around it, hands these nodes to the
builder one after the other (`MarkupTemplate.Markup.Yields`). A text is handed over as pending
text, so texts that meet become one, and stretches can be put in a row without a condition on what
they begin and end with. Only where a list of nodes has to be taken as it stands do its texts have
to be apart (`MarkupTemplate.Dom.Separated`).

A void element is written as its start tag alone. The reader counts this tag among those that may
still be closed, which is why a yield also raises the allowance of end tags.

## Main definitions

* `MarkupTemplate.Markup.Builder.receive`, `MarkupTemplate.Markup.Builder.receiveAll` — nodes
  handed to a builder.
* `MarkupTemplate.Markup.Yields` — a stretch of markup with the nodes it yields.
* `MarkupTemplate.Markup.Words` — markup of a text with the text that it stands for.
* `MarkupTemplate.Dom.Separated` — nodes whose texts are not empty and apart.

## Main results

* `MarkupTemplate.Markup.Yields.append`, `MarkupTemplate.Markup.Words.yields`
* `MarkupTemplate.Markup.yields_element`, `MarkupTemplate.Markup.yields_void`
* `MarkupTemplate.Markup.parseChars_of_yields` — what a whole text that yields nodes describes.
-/

namespace MarkupTemplate

open Dom Markup Text

/-! ### Nodes in a row -/

namespace Dom

/-- Whether a list of nodes begins with a text. -/
def startsText : List Node → Bool
  | .text _ :: _ => true
  | _ => false

/-- No text is empty, and no text follows another. -/
def Separated : List Node → Prop
  | [] => True
  | .text s :: ns => s ≠ "" ∧ startsText ns = false ∧ Separated ns
  | _ :: ns => Separated ns

theorem separated_cons {n : Node} {ns : List Node} (hn : Separated [n]) (hns : Separated ns)
    (h : startsText [n] = true → startsText ns = false) : Separated (n :: ns) := by
  cases n with
  | text s => exact ⟨hn.1, h rfl, hns⟩
  | _ => exact hns

end Dom

namespace Markup

namespace Builder

variable (b : Builder)

/-- The builder with a node handed to it: a text goes to the pending text. -/
def receive : Node → Builder
  | .text s => b.addText s.toList
  | n => b.push n

/-- The builder with nodes handed to it one after the other. -/
def receiveAll (ns : List Node) : Builder := ns.foldl receive b

/-- The builder with more end tags allowed. -/
def grant (extra : Nat) : Builder := { b with allowance := b.allowance + extra }

@[simp] theorem receiveAll_nil : b.receiveAll [] = b := rfl

@[simp] theorem receiveAll_cons (n : Node) (ns : List Node) :
    b.receiveAll (n :: ns) = (b.receive n).receiveAll ns := rfl

theorem receiveAll_append (ms ns : List Node) :
    b.receiveAll (ms ++ ns) = (b.receiveAll ms).receiveAll ns := List.foldl_append

@[simp] theorem grant_zero : b.grant 0 = b := rfl

@[simp] theorem grant_grant (j k : Nat) : (b.grant j).grant k = b.grant (j + k) := by
  simp [grant, Nat.add_assoc]

@[simp] theorem flush_grant (extra : Nat) : (b.grant extra).flush = b.flush.grant extra := by
  rw [grant, flush_withAllowance, grant, allowance_flush]

@[simp] theorem add_grant (n : Node) (extra : Nat) :
    (b.grant extra).add n = (b.add n).grant extra := by
  rw [grant, add_withAllowance, grant, allowance_add]

@[simp] theorem push_grant (n : Node) (extra : Nat) :
    (b.grant extra).push n = (b.push n).grant extra := by
  rw [grant, push_withAllowance, grant, allowance_push]

theorem receive_grant (n : Node) (extra : Nat) :
    (b.grant extra).receive n = (b.receive n).grant extra := by
  cases n with
  | text s => rfl
  | _ => exact b.push_grant _ extra

theorem receiveAll_grant (ns : List Node) (extra : Nat) :
    (b.grant extra).receiveAll ns = (b.receiveAll ns).grant extra := by
  induction ns generalizing b with
  | nil => rfl
  | cons n ns ih => rw [receiveAll_cons, receive_grant, ih, receiveAll_cons]

variable {b}

/-- Separated nodes are taken as they stand, once the last of them is complete. -/
theorem flush_receiveAll {ns : List Node} (h : Separated ns)
    (hb : b.pending = [] ∨ startsText ns = false) :
    (b.receiveAll ns).flush = b.flush.extend ns := by
  induction ns generalizing b with
  | nil => rfl
  | cons n ns ih =>
    have hpush (hn : Separated ns) :
        ((b.push n).receiveAll ns).flush = b.flush.extend (n :: ns) := by
      rw [ih hn (Or.inl (b.pending_push n)), flush_push]
      rfl
    cases n with
    | text s =>
      obtain ⟨hs, hstart, hn⟩ := h
      have hp : b.pending = [] := hb.resolve_right (by simp [startsText])
      have hne : s.toList ≠ [] := fun he => hs (String.toList_eq_nil_iff.mp he)
      rw [receiveAll_cons, receive, ih hn (Or.inr hstart), flush_addText hp hne,
        flush_of_pending hp, String.ofList_toList]
      rfl
    | element name attrs cs => exact hpush h
    | comment s => exact hpush h
    | doctype s => exact hpush h
    | instruction target data => exact hpush h
    | fragment cs => exact hpush h

/-- In an element just opened, separated nodes become its children. -/
theorem flush_receiveAll_opened {ns : List Node} (h : Separated ns) (roots : List Node)
    (e : OpenElement) (es : List OpenElement) (allowance : Nat) :
    ((⟨roots, e :: es, [], allowance⟩ : Builder).receiveAll ns).flush =
      ⟨roots, { e with children := ns.reverse ++ e.children } :: es, [], allowance⟩ := by
  rw [flush_receiveAll h (Or.inl rfl), flush_of_pending rfl, extend_opened]

variable (b) in
/-- A start tag leaves an element without children and without pending text. -/
theorem openElement_eq (name : String) (attrs : KeyedList String String) (allowance : Nat) :
    { b with allowance }.openElement name attrs =
      ⟨b.flush.roots, ⟨name, attrs, []⟩ :: b.flush.opened, [], allowance⟩ := by
  rw [openElement, flush_withAllowance]
  simp only [pending_flush]

end Builder

/-! ### Stretches of markup -/

/-- A stretch of markup that yields these nodes, whatever stands around it. -/
def Yields (cs : List Char) (ns : List Node) : Prop :=
  ∀ whole b rest, ∃ extra, resume whole .lenient b (cs ++ rest) =
    resume whole .lenient ((b.receiveAll ns).grant extra) rest

theorem yields_nil : Yields [] [] := fun _ b _ => ⟨0, by rw [b.receiveAll_nil, b.grant_zero]; rfl⟩

/-- Stretches in a row yield their nodes in a row. -/
theorem Yields.append {cs ds : List Char} {ns ms : List Node} (hc : Yields cs ns)
    (hd : Yields ds ms) : Yields (cs ++ ds) (ns ++ ms) := by
  intro whole b rest
  obtain ⟨j, hj⟩ := hc whole b (ds ++ rest)
  obtain ⟨k, hk⟩ := hd whole ((b.receiveAll ns).grant j) rest
  refine ⟨j + k, ?_⟩
  rw [List.append_assoc, hj, hk, Builder.receiveAll_grant, Builder.grant_grant,
    Builder.receiveAll_append]

/-- What is read as one node by a single token yields it. -/
theorem Yields.of_push {cs : List Char} {n : Node} (hn : ∀ b : Builder, b.receive n = b.push n)
    (h : ∀ whole b rest, resume whole .lenient b (cs ++ rest) =
      resume whole .lenient (b.push n) rest) : Yields cs [n] := fun whole b rest =>
  ⟨0, by rw [h, Builder.receiveAll_cons, hn]; rfl⟩

/-- A text that yields separated nodes, behind a byte-order mark if there is one, describes
these. -/
theorem parseChars_of_yields {cs ds : List Char} {ns : List Node}
    (hd : dropByteOrderMark cs = ds) (h : Yields ds ns) (hs : Separated ns) :
    parseChars .lenient cs = .ok ns := by
  obtain ⟨extra, hr⟩ := h ds .empty []
  have hf := Builder.flush_receiveAll hs (b := .empty) (Or.inl rfl)
  have he (ms : List Node) (b : Builder) (ho : b.opened = []) :
      (b.extend ms).opened = [] ∧ (b.extend ms).roots = ms.reverse ++ b.roots := by
    induction ms generalizing b with
    | nil => exact ⟨ho, rfl⟩
    | cons m ms ih =>
      have ha : b.add m = { b with roots := m :: b.roots } := by rw [Builder.add, ho]
      rw [Builder.extend_cons, ha, List.reverse_cons, List.append_assoc]
      exact ih _ ho
  obtain ⟨ho, hroots⟩ := he ns (Builder.flush .empty) rfl
  rw [List.append_nil] at hr
  rw [parseChars_eq_resume, hd, hr, resume_nil, Builder.finish, Builder.flush_grant, hf]
  simp only [Builder.grant, ho, hroots]
  exact congrArg Except.ok (by simp [Builder.flush, Builder.empty, Builder.text])

/-! ### Texts -/

/-- The text `cs` of markup stands for `ds`: every ampersand begins a reference. -/
inductive Words : List Char → List Char → Prop
  | nil : Words [] []
  | char {c : Char} {cs ds : List Char} : isText c = true → Words cs ds → Words (c :: cs) (c :: ds)
  | reference {body cs ds : List Char} : (∀ c ∈ body, isTextReference c = true) → Words cs ds →
      Words ('&' :: (body ++ ';' :: cs)) (resolveInText body ++ ds)

variable {whole : List Char} {mode : Mode} {b : Builder}

/-- A reference in text is collected as what it stands for. -/
theorem resume_reference {body : List Char} (h : ∀ c ∈ body, isTextReference c = true)
    (rest : List Char) :
    resume whole mode b ('&' :: (body ++ ';' :: rest)) =
      resume whole mode (b.addText (resolveInText body)) rest := by
  have hr : readToken '&' (body ++ ';' :: rest) = .ok (.reference body, rest) :=
    readReference_eq h rest
  rw [resume_of_readToken hr]
  rfl

theorem Words.resume_append {cs ds : List Char} (h : Words cs ds) (rest : List Char) :
    resume whole mode b (cs ++ rest) = resume whole mode (b.addText ds) rest := by
  induction h generalizing b with
  | nil => rfl
  | char hc _ ih =>
    have hc' : ∀ d ∈ [_], isText d = true := List.forall_mem_singleton.mpr hc
    refine (resume_text hc' _).trans (ih.trans ?_)
    rw [Builder.addText_addText]
    rfl
  | reference hb _ ih =>
    rw [List.cons_append, List.append_assoc, List.cons_append, resume_reference hb, ih,
      Builder.addText_addText]

/-- Words yield the text that they stand for. -/
theorem Words.yields {cs ds : List Char} (h : Words cs ds) :
    Yields cs [.text (String.ofList ds)] := fun whole b rest =>
  ⟨0, by rw [h.resume_append, Builder.receiveAll_cons, Builder.receive, String.toList_ofList]; rfl⟩

theorem resolveInText_ne_nil (body : List Char) : resolveInText body ≠ [] := by
  unfold resolveInText
  dsimp only
  split <;> exact List.cons_ne_nil _ _

theorem Words.ne_nil {cs ds : List Char} (h : Words cs ds) (hne : cs ≠ []) : ds ≠ [] := by
  cases h with
  | nil => exact absurd rfl hne
  | char _ _ => exact List.cons_ne_nil _ _
  | reference _ _ => exact fun he => resolveInText_ne_nil _ (List.append_eq_nil_iff.mp he).1

/-- Without ampersands and opening brackets a text stands for itself. -/
theorem words_self {cs : List Char} (h : ∀ c ∈ cs, isText c = true) : Words cs cs := by
  induction cs with
  | nil => exact .nil
  | cons c cs ih =>
    obtain ⟨hc, hcs⟩ := List.forall_mem_cons.mp h
    exact .char hc (ih hcs)

/-! ### Elements -/

variable {esc : List Char → List Char} {attrs : List (List Char × List Char)}

/-- An element with an end tag yields itself around what its content yields. -/
theorem yields_element {name : List Char} (hn : Writable esc name attrs) (h : Readable esc attrs)
    (hv : Dom.isVoid (String.ofList name) = false) {inner : List Char} {ns : List Node}
    (hi : Yields inner ns) (hs : Separated ns) :
    Yields ('<' :: (tagMarkup esc name attrs ++ '>' ::
        (inner ++ '<' :: '/' :: (name ++ ['>']))))
      [.element (String.ofList name) (Builder.attributes attrs) ns] := by
  intro whole b rest
  have hl : Mode.lenient.isVoid (String.ofList name) = false := hv
  let e : OpenElement := ⟨String.ofList name, Builder.attributes attrs, []⟩
  -- The content is read with the element opened, and one end tag more is allowed.
  obtain ⟨extra, hr⟩ := hi whole ⟨b.flush.roots, e :: b.flush.opened, [], b.allowance + 1⟩
    ('<' :: '/' :: (name ++ '>' :: rest))
  have hb := Builder.flush_receiveAll_opened hs b.flush.roots e b.flush.opened (b.allowance + 1)
  generalize Builder.receiveAll _ ns = c at hr hb
  have ha : (c.grant extra).allowance = b.allowance + extra + 1 := by
    rw [← Builder.allowance_flush, Builder.flush_grant, hb]
    exact Nat.add_right_comm _ 1 extra
  have ho : (c.grant extra).flush.opened = { e with children := ns.reverse ++ [] } ::
      b.flush.opened := by rw [Builder.flush_grant, hb]; rfl
  have hnode : ({ e with children := ns.reverse ++ [] } : OpenElement).node =
      .element (String.ofList name) (Builder.attributes attrs) ns := by
    simp [OpenElement.node, e]
  have hclosed : (⟨b.flush.roots, b.flush.opened, [], b.allowance + extra⟩ : Builder) =
      b.flush.grant extra := by
    rw [Builder.grant, Builder.pending_flush, Builder.allowance_flush]
  have hstart : '<' :: (tagMarkup esc name attrs ++ '>' :: (inner ++ '<' :: '/' ::
      (name ++ ['>']))) ++ rest = '<' :: (tagMarkup esc name attrs ++ '>' ::
      (inner ++ '<' :: '/' :: (name ++ '>' :: rest))) := by simp
  refine ⟨extra, ?_⟩
  rw [hstart, resume_startTag hn h hl, Builder.openElement_eq, hr,
    resume_endTag hn ho rfl ha hl, Builder.flush_grant, hb, hnode]
  exact congrArg (resume whole .lenient · rest) ((congrArg _ hclosed).trans (Builder.add_grant ..))

/-- A void element yields itself by its start tag alone. -/
theorem yields_void {name : List Char} (hn : Writable esc name attrs) (h : Readable esc attrs)
    (hv : Dom.isVoid (String.ofList name) = true) :
    Yields ('<' :: (tagMarkup esc name attrs ++ ['>']))
      [.element (String.ofList name) (Builder.attributes attrs) []] := by
  intro whole b rest
  have he : '<' :: (tagMarkup esc name attrs ++ ['>']) ++ rest =
      '<' :: (tagMarkup esc name attrs ++ '>' :: rest) := by simp
  refine ⟨1, ?_⟩
  rw [he, resume_of_readToken (readToken_startTag hn h rest), Builder.step]
  simp only [localName_of_not_mem hn.unqualified, Mode.isVoid, hv, if_true]
  rw [Builder.receiveAll_cons, Builder.receiveAll_nil, Builder.receive, ← Builder.push_grant]
  · rfl
  · exact fun _ hs => by cases hs

end Markup

end MarkupTemplate
