import MarkupTemplate.Proofs.Markup.RoundTrip
import MarkupTemplate.Proofs.Template.NodeSlots

/-!
# Forests as streams of tokens

A forest is written out as a stream of tokens again: of an element first its start tag, then what
its children are written as, then its end tag. For the forest that is built of a stream this gives
the stream back, but with each run of text in one token and with an empty-element tag as a start
tag and an end tag.

Some details of the tokens are not kept by the nodes and are left out on both sides
(`MarkupTemplate.Markup.Token.plain`): what stands before the first colon of a tag name, the blanks
around a doctype, and the blanks around the data of an instruction.

## Main definitions

* `MarkupTemplate.Dom.Node.linear` — the tokens that a node is written as.
* `MarkupTemplate.Markup.merged` — a stream with its runs of text merged.
* `MarkupTemplate.Markup.Builder.linear` — the tokens of what a builder holds complete or open.

## Main results

* `MarkupTemplate.Markup.Builder.linear_step`, `MarkupTemplate.Markup.Builder.linear_run`
* `MarkupTemplate.Markup.linearAll_build` — the tokens of a forest that was built.
-/

namespace MarkupTemplate

open Dom Text

namespace Markup

/-! ### Streams -/

namespace Token

/-- The token without what its node does not keep. -/
def plain : Token → Token
  | startTag name attrs => startTag (afterFirst ':' name) attrs
  | emptyTag name attrs => emptyTag (afterFirst ':' name) attrs
  | endTag name => endTag (afterFirst ':' name)
  | doctype content => doctype (trim content)
  | instruction content =>
    instruction (content.takeWhile (! isBlank ·) ++ ' ' :: trim (content.dropWhile (! isBlank ·)))
  | t => t

/-- An empty-element tag as a start tag and an end tag, any other token as it is. -/
def split : Token → List Token
  | emptyTag name attrs => [startTag name attrs, endTag name]
  | t => [t]

end Token

/-- The text as one token, if it is not empty. -/
def textTokens (content : List Char) : List Token :=
  if content = [] then [] else [.text content]

/-- Puts a text in front of a stream, as one with the text that the stream begins with. -/
def consText (content : List Char) : List Token → List Token
  | .text more :: ts => .text (content ++ more) :: ts
  | ts => textTokens content ++ ts

/-- The stream in which every longest run of texts, references and CDATA sections is one text.
Declarations do not count, and no text is empty. -/
def merged : List Token → List Token
  | [] => []
  | t :: ts =>
    match t.text? with
    | some content => consText content (merged ts)
    | none => t.split ++ merged ts

theorem textTokens_of_ne_nil {content : List Char} (h : content ≠ []) :
    textTokens content = [.text content] := if_neg h

theorem plain_textTokens (content : List Char) :
    (textTokens content).map Token.plain = textTokens content := by
  rw [textTokens]
  split
  · rfl
  · rfl

theorem consText_empty (content : List Char) : consText content [] = textTokens content :=
  List.append_nil (textTokens content)

theorem consText_nil (ts : List Token) : consText [] ts = ts := by
  rw [consText.eq_def]
  split
  · rfl
  · rfl

/-- Text that is put in front in two parts becomes one text. -/
theorem consText_consText (cs ds : List Char) (ts : List Token) :
    consText cs (consText ds ts) = consText (cs ++ ds) ts := by
  cases ds with
  | nil => rw [consText_nil, List.append_nil]
  | cons d ds =>
    rw [consText.eq_def (d :: ds), consText.eq_def (cs ++ d :: ds)]
    split
    · exact congrArg (fun content => Token.text content :: _) (List.append_assoc ..).symm
    · rw [textTokens_of_ne_nil (List.cons_ne_nil d ds), textTokens_of_ne_nil (by simp)]
      rfl

/-- Only text goes on with the text before it. -/
theorem consText_split {t : Token} (h : t.text? = none) (content : List Char) (ts : List Token) :
    consText content (t.split ++ ts) = textTokens content ++ (t.split ++ ts) := by
  cases t with
  | text | reference | cdata | declaration => cases h
  | startTag | emptyTag | endTag | comment | doctype | instruction => rfl

end Markup

/-! ### Nodes -/

namespace Dom.Node

mutual

/-- The tokens that a node is written as. -/
def linear : Node → List Markup.Token
  | .element name attrs children =>
    .startTag name.toList (Markup.rawAttributes attrs) ::
      (linearAll children ++ [.endTag name.toList])
  | .text content => [.text content.toList]
  | .comment content => [.comment content.toList]
  | .doctype content => [.doctype content.toList]
  | .instruction target data => [.instruction (target.toList ++ ' ' :: data.toList)]
  | .fragment children => linearAll children

/-- The tokens that a list of nodes is written as. -/
def linearAll : List Node → List Markup.Token
  | [] => []
  | n :: ns => linear n ++ linearAll ns

end

theorem linearAll_append (ms ns : List Node) :
    linearAll (ms ++ ns) = linearAll ms ++ linearAll ns := by
  induction ms with
  | nil => rfl
  | cons m ms ih => rw [List.cons_append, linearAll, linearAll, ih, List.append_assoc]

theorem linearAll_reverse_cons (n : Node) (ns : List Node) :
    linearAll (n :: ns).reverse = linearAll ns.reverse ++ n.linear := by
  rw [List.reverse_cons, linearAll_append, linearAll, linearAll, List.append_nil]

end Dom.Node

namespace Markup

/-! ### Builders -/

namespace Builder

open Dom.Node (linearAll linearAll_reverse_cons)

/-- The start tag of an open element. -/
def startTag (name : String) (attrs : KeyedList String String) : Token :=
  .startTag name.toList (rawAttributes attrs)

@[simp] theorem rawAttributes_attributes (attrs : List (List Char × List Char)) :
    rawAttributes (attributes attrs) = attrs := by
  simp [rawAttributes, attributes, Function.comp_def]

/-- The tokens of open elements, the outermost first. -/
def openLinear : List OpenElement → List Token
  | [] => []
  | e :: es => openLinear es ++ (startTag e.name e.attrs :: linearAll e.children.reverse)

/-- The tokens of what has been built. -/
def linear (b : Builder) : List Token := linearAll b.roots.reverse ++ openLinear b.opened

theorem startTag_attributes (name : List Char) (attrs : List (List Char × List Char)) :
    startTag (localName name) (attributes attrs) = (Token.startTag name attrs).plain := by
  simp [startTag, localName, Token.plain]

variable {b b' : Builder}

theorem linear_add (b : Builder) (n : Node) : (b.add n).linear = b.linear ++ n.linear := by
  obtain ⟨roots, opened, pending, allowance⟩ := b
  cases opened with
  | nil =>
    show linearAll (n :: roots).reverse ++ [] = linearAll roots.reverse ++ [] ++ n.linear
    rw [linearAll_reverse_cons, List.append_nil, List.append_nil]
  | cons e es =>
    show linearAll roots.reverse ++ (openLinear es ++
        (startTag e.name e.attrs :: linearAll (n :: e.children).reverse)) = _
    rw [linearAll_reverse_cons]
    simp only [linear, openLinear, List.append_assoc, List.cons_append]

theorem linear_flush (b : Builder) : b.flush.linear = b.linear ++ textTokens b.text := by
  rw [flush]
  split
  · rename_i h
    rw [h]
    exact (List.append_nil _).symm
  · rename_i hne
    show (b.add (.text (String.ofList b.text))).linear = _
    rw [linear_add, Node.linear, String.toList_ofList, textTokens_of_ne_nil hne]

theorem linear_push (b : Builder) (n : Node) :
    (b.push n).linear = b.linear ++ (textTokens b.text ++ n.linear) := by
  rw [push, linear_add, linear_flush, List.append_assoc]

theorem linear_openElement (b : Builder) (name : String) (attrs : KeyedList String String) :
    (b.openElement name attrs).linear =
      b.linear ++ (textTokens b.text ++ [startTag name attrs]) := by
  have h := b.linear_flush
  rw [linear] at h
  rw [← List.append_assoc, ← h]
  simp [linear, openElement, openLinear, linearAll]

/-- A closed element has one more token than it had open. -/
theorem linear_close {name : String} (h : b.close name = .ok b') :
    b'.linear = b.linear ++ (textTokens b.text ++ [.endTag name.toList]) ∧ b'.text = [] := by
  have hf := b.linear_flush
  have ht := b.text_flush
  rw [close] at h
  split at h
  · cases h
  · rename_i e es ho
    split at h
    · rename_i hname
      cases h
      rw [linear, ho] at hf
      refine ⟨?_, ?_⟩
      · rw [linear_add, ← List.append_assoc, ← hf, ← hname]
        simp [linear, OpenElement.node, Node.linear, openLinear, startTag]
      · rw [text, pending_add]
        exact ht
    · cases h

theorem step_of_text? {t : Token} {content : List Char} (h : t.text? = some content)
    (mode : Mode) (b : Builder) : b.step mode t = .ok (b.addText content) := by
  cases t with
  | text | reference | cdata | declaration =>
    cases h
    rfl
  | startTag | emptyTag | endTag | comment | doctype | instruction => cases h

private theorem linear_step_of_none {t : Token} (ht : t.text? = none)
    (h : b.step .strict t = .ok b') :
    b'.linear = b.linear ++ (textTokens b.text ++ t.split.map Token.plain) ∧ b'.text = [] := by
  cases t with
  | text | reference | cdata | declaration => cases ht
  | startTag name attrs =>
    cases h
    refine ⟨(linear_openElement _ _ _).trans ?_, text_openElement _ _ _⟩
    rw [startTag_attributes]
    rfl
  | emptyTag name attrs =>
    cases h
    refine ⟨(linear_push b _).trans ?_, text_push _ _⟩
    rw [Node.linear, rawAttributes_attributes, localName, String.toList_ofList]
    rfl
  | endTag name =>
    rw [step, endTag] at h
    split at h
    · cases h
    · obtain ⟨hb, ht⟩ := linear_close h
      refine ⟨hb.trans ?_, ht⟩
      rw [localName, String.toList_ofList]
      rfl
  | comment content | doctype content =>
    cases h
    refine ⟨(linear_push b _).trans ?_, text_push b _⟩
    rw [Node.linear, String.toList_ofList]
    rfl
  | instruction content =>
    cases h
    refine ⟨(linear_push b _).trans ?_, text_push b _⟩
    rw [instruction, Node.linear, String.toList_ofList, String.toList_ofList]
    rfl

/-- One token moves from the stream to what has been built. -/
theorem linear_step {t : Token} (h : b.step .strict t = .ok b') (ts : List Token) :
    b'.linear ++ (consText b'.text (merged ts)).map Token.plain =
      b.linear ++ (consText b.text (merged (t :: ts))).map Token.plain := by
  rw [merged]
  cases ht : t.text? with
  | some content =>
    cases (step_of_text? ht .strict b).symm.trans h
    rw [text_addText, ← consText_consText]
    rfl
  | none =>
    obtain ⟨hb, htext⟩ := linear_step_of_none ht h
    simp only [hb, htext, consText_nil, consText_split ht, List.map_append, plain_textTokens,
      List.append_assoc]

/-- When all tokens have come, all of the stream has been built. -/
theorem linear_run {ts : List Token} (h : b.run .strict ts = .ok b') :
    b'.flush.linear = b.linear ++ (consText b.text (merged ts)).map Token.plain := by
  induction ts generalizing b with
  | nil =>
    cases h
    rw [linear_flush, merged, consText_empty, plain_textTokens]
  | cons t ts ih =>
    obtain ⟨c, hc, h⟩ := Except.bind_eq_ok_iff.mp h
    rw [ih h, linear_step hc]

end Builder

/-! ### Forests -/

/-- The forest of a stream of tokens. -/
def build (mode : Mode) (ts : List Token) : Except ParseError (List Node) :=
  (Builder.empty.run mode ts).bind Builder.finish

/-- A text without faults is read as the forest of its tokens. -/
theorem parse_eq_build {mode : Mode} {markup : String} {ts : List Token}
    (h : tokens (dropByteOrderMark markup.toList) = (ts, none)) :
    parse mode markup = build mode ts := by
  rw [parse, parseChars, h]
  rfl

/-- A forest is written as the tokens that it is built of. -/
theorem linearAll_build {ts : List Token} {nodes : List Node}
    (h : build .strict ts = .ok nodes) :
    Node.linearAll nodes = (merged ts).map Token.plain := by
  obtain ⟨b, hr, hf⟩ := Except.bind_eq_ok_iff.mp h
  obtain ⟨ho, rfl⟩ := Builder.exists_of_finish hf
  have hb := Builder.linear_run hr
  rw [Builder.linear, ho] at hb
  refine (List.append_nil _).symm.trans (hb.trans ?_)
  exact congrArg (List.map Token.plain) (consText_nil (merged ts))

end Markup

end MarkupTemplate
