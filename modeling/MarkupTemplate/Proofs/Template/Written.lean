import MarkupTemplate.Proofs.Template.Markers
import MarkupTemplate.Template.Fragments
import MarkupTemplate.Template.Value

/-!
# Templates as they are written

A template is a forest of texts, comments and elements. Texts and attribute values are literals and
slots in a row. A slot stands here with the value that it is filled with, so that a template has
fragments, in which the slots are left open, and an output, in which they are filled. The fragments
do not depend on the values.

The output is what is written, with values for slots, with blanks put in order, and without the
end tag and the blank content of void elements.

## Main definitions

* `MarkupTemplate.Piece`, `MarkupTemplate.Template` — templates with values for their slots.
* `MarkupTemplate.Template.WellFormed` — names and literals that can be written as they are.
* `MarkupTemplate.Template.holed`, `MarkupTemplate.Template.fragments` — the markup, open at the
  slots, and its fragments.
* `MarkupTemplate.Template.WrittenAs` — the markups with which elements may also be written as one
  tag.
* `MarkupTemplate.Template.values` — the values of the slots in the order of the markup.
* `MarkupTemplate.Template.trimmed`, `MarkupTemplate.Template.output` — what is to be rendered.

## Main results

* `MarkupTemplate.Template.join_fragments` — the joined fragments are the markup with markers.
* `MarkupTemplate.Template.writtenAs_holed` — the markup in which every element has an end tag is
  one of those that a template may be written as.
-/

namespace MarkupTemplate

open Text

/-! ### Templates -/

/-- A piece of a text or of an attribute value. -/
inductive Piece where
  | literal (content : List Char)
  /-- A slot with the value that fills it. -/
  | slot (value : Value)

/-- Whether a piece has none of these characters in its literal. -/
def Piece.avoids (excluded : List Char) : Piece → Bool
  | literal content => content.all (! excluded.contains ·)
  | slot _ => true

/-- A forest of texts, comments and elements, given by its first tree and those that follow. -/
inductive Template where
  | nil
  | text (pieces : List Piece) (next : Template)
  | comment (content : List Char) (next : Template)
  | element (name : List Char) (attrs : List (List Char × List Piece)) (children next : Template)

namespace Pieces

/-- The values of the slots. -/
def values : List Piece → List Value
  | [] => []
  | .literal _ :: ps => values ps
  | .slot v :: ps => v :: values ps

/-- The pieces with the first changed, if it is a literal. -/
def mapHead (f : List Char → List Char) : List Piece → List Piece
  | .literal cs :: ps => .literal (f cs) :: ps
  | ps => ps

/-- The pieces with the last changed, if it is a literal. -/
def mapLast (f : List Char → List Char) : List Piece → List Piece
  | [] => []
  | [.literal cs] => [.literal (f cs)]
  | p :: ps => p :: mapLast f ps

/-- The pieces with all literals changed. -/
def mapLiterals (f : List Char → List Char) : List Piece → List Piece
  | [] => []
  | .literal cs :: ps => .literal (f cs) :: mapLiterals f ps
  | .slot v :: ps => .slot v :: mapLiterals f ps

/-- Whether no two literals follow each other. -/
def Separated : List Piece → Prop
  | .literal _ :: .literal _ :: _ => False
  | _ :: ps => Separated ps
  | [] => True

/-- Pieces whose literals have no marker and none of the excluded characters. -/
structure WellFormed (excluded : List Char) (ps : List Piece) : Prop where
  separated : Separated ps
  plain : ∀ cs, .literal cs ∈ ps → ∀ c ∈ excluded, c ∉ cs
  markerFree : ∀ cs, .literal cs ∈ ps → MarkerFree cs

/-- Without closing brackets there are no markers, whatever else the literals hold. -/
theorem wellFormed_of_avoids {excluded : List Char} {ps : List Piece} (hs : Separated ps)
    (h : ps.all (Piece.avoids (']' :: excluded)) = true) : WellFormed excluded ps := by
  have hl (cs : List Char) (hc : .literal cs ∈ ps) (c : Char) (hx : c ∈ ']' :: excluded) :
      c ∉ cs := by
    intro hm
    have ha := List.all_eq_true.mp (List.all_eq_true.mp h _ hc) c hm
    simp [hx] at ha
  exact ⟨hs, fun cs hc c hx => hl cs hc c (List.mem_cons_of_mem _ hx),
    fun cs hc => markerFree_of_not_mem (hl cs hc ']' List.mem_cons_self)⟩

/-- The literals and the texts of the values in a row. -/
def output : List Piece → List Char
  | [] => []
  | .literal cs :: ps => cs ++ output ps
  | .slot v :: ps => v.text.toList ++ output ps

end Pieces

/-- A lower-case letter, and behind it lower-case letters and digits. -/
def IsName : List Char → Prop
  | [] => False
  | c :: cs => c.isLower = true ∧ ∀ d ∈ cs, d.isLower = true ∨ d.isDigit = true

namespace Template

/-- Whether the first tree is a text. -/
def startsText : Template → Bool
  | text .. => true
  | _ => false

/-- Names are names, literals have no markers and nothing that ends them, attributes are distinct,
and adjacent texts are one. -/
def WellFormed : Template → Prop
  | nil => True
  | text ps next => Pieces.WellFormed ['<'] ps ∧ next.startsText = false ∧ next.WellFormed
  | comment content next => '>' ∉ content ∧ next.WellFormed
  | element name attrs children next =>
    IsName name ∧ (∀ attr ∈ attrs, IsName attr.1 ∧ Pieces.WellFormed ['<', '"'] attr.2) ∧
      (attrs.map Prod.fst).Nodup ∧ children.WellFormed ∧ next.WellFormed

/-- The values of the slots of attributes. -/
def attributeValues (attrs : List (List Char × List Piece)) : List Value :=
  attrs.flatMap fun attr => Pieces.values attr.2

/-- The values of the slots in the order of the markup. -/
def values : Template → List Value
  | nil => []
  | text ps next => Pieces.values ps ++ next.values
  | comment _ next => next.values
  | element _ attrs children next =>
    attributeValues attrs ++ children.values ++ next.values

end Template

/-! ### Markup with holes -/

/-- Markup with holes at the slots. -/
abbrev Holed := List (Option Char)

namespace Holed

/-- Markup without a hole. -/
def ofChars (cs : List Char) : Holed := cs.map some

/-- The number of holes. -/
def holes (h : Holed) : Nat := h.countP Option.isNone

/-- The markup with markers in the holes, numbered from `k` on. -/
def mark : (k : Nat) → Holed → List Char
  | _, [] => []
  | k, some c :: h => c :: mark k h
  | k, none :: h => marker k ++ mark (k + 1) h

/-- The stretches between the holes. -/
def cut : Holed → List (List Char)
  | [] => [[]]
  | none :: h => [] :: cut h
  | some c :: h =>
    match cut h with
    | [] => [[c]]
    | cs :: rest => (c :: cs) :: rest

theorem mark_append (k : Nat) (g h : Holed) :
    mark k (g ++ h) = mark k g ++ mark (k + holes g) h := by
  induction g generalizing k with
  | nil => rfl
  | cons cell g ih =>
    cases cell with
    | some c =>
      rw [List.cons_append, mark, mark, ih, List.cons_append]
      rfl
    | none =>
      have hk : k + holes (none :: g) = k + 1 + holes g := by
        simp [holes, Nat.add_assoc, Nat.add_comm]
      rw [List.cons_append, mark, mark, ih, List.append_assoc, hk]

@[simp] theorem mark_ofChars (k : Nat) (cs : List Char) : mark k (ofChars cs) = cs := by
  induction cs with
  | nil => rfl
  | cons c cs ih => exact congrArg (c :: ·) ih

@[simp] theorem holes_ofChars (cs : List Char) : holes (ofChars cs) = 0 := by
  simp [holes, ofChars, List.countP_map, List.countP_eq_zero]

@[simp] theorem holes_append (g h : Holed) : holes (g ++ h) = holes g + holes h :=
  List.countP_append

theorem cut_ne_nil (h : Holed) : cut h ≠ [] := by
  cases h with
  | nil => exact List.cons_ne_nil _ _
  | cons cell h =>
    cases cell with
    | none => exact List.cons_ne_nil _ _
    | some c =>
      rw [cut]
      split <;> exact List.cons_ne_nil _ _

/-- Joining what was cut at the holes puts markers into these. -/
theorem joinFrom_cut (k : Nat) (h : Holed) :
    Fragments.joinFrom k ((cut h).map String.ofList) = mark k h := by
  induction h generalizing k with
  | nil => simp [cut, mark, Fragments.joinFrom]
  | cons cell h ih =>
    obtain ⟨cs, rest, hc⟩ := List.exists_cons_of_ne_nil (cut_ne_nil h)
    cases cell with
    | none =>
      rw [cut, mark, ← ih (k + 1), hc, List.map_cons, List.map_cons, Fragments.joinFrom]
      simp
    | some c =>
      rw [cut, mark, ← ih k, hc]
      cases rest <;> simp [Fragments.joinFrom]

/-- The fragments between the holes. -/
def fragments (h : Holed) : List String := h.cut.map String.ofList

theorem join_fragments (h : Holed) : Fragments.join h.fragments = String.ofList (h.mark 0) :=
  congrArg String.ofList (joinFrom_cut 0 h)

end Holed

namespace Pieces

/-- The pieces with holes for slots. -/
def holed : List Piece → Holed
  | [] => []
  | .literal cs :: ps => .ofChars cs ++ holed ps
  | .slot _ :: ps => none :: holed ps

/-- The pieces with markers for slots, numbered from `k` on. -/
def mark (k : Nat) (ps : List Piece) : List Char := (holed ps).mark k

@[simp] theorem holes_holed (ps : List Piece) : (holed ps).holes = (values ps).length := by
  induction ps with
  | nil => rfl
  | cons p ps ih =>
    cases p with
    | literal cs => simp [holed, values, ih]
    | slot v => simpa [holed, values, Holed.holes] using ih

@[simp] theorem mark_nil (k : Nat) : mark k [] = [] := rfl

@[simp] theorem mark_literal (k : Nat) (cs : List Char) (ps : List Piece) :
    mark k (.literal cs :: ps) = cs ++ mark k ps := by
  simp [mark, holed, Holed.mark_append]

@[simp] theorem mark_slot (k : Nat) (v : Value) (ps : List Piece) :
    mark k (.slot v :: ps) = marker k ++ mark (k + 1) ps := rfl

end Pieces

namespace Template

/-- The attributes with holes for slots. -/
def holedAttributes : List (List Char × List Piece) → Holed
  | [] => []
  | (name, ps) :: attrs =>
    .ofChars (' ' :: (name ++ ['=', '"'])) ++ Pieces.holed ps ++ .ofChars ['"'] ++
      holedAttributes attrs

/-- The markup of a template with holes for slots. Every element has an end tag. -/
def holed : Template → Holed
  | nil => []
  | text ps next => Pieces.holed ps ++ next.holed
  | comment content next =>
    .ofChars (['<', '!', '-', '-'] ++ content ++ ['-', '-', '>']) ++ next.holed
  | element name attrs children next =>
    .ofChars ('<' :: name) ++ holedAttributes attrs ++ .ofChars ['>'] ++ children.holed ++
      .ofChars ('<' :: '/' :: (name ++ ['>'])) ++ next.holed

/-- The fragments of the markup between the slots. -/
def fragments (t : Template) : List String := t.holed.cut.map String.ofList

/-- The markup with markers for slots, numbered from `k` on. -/
def mark (k : Nat) (t : Template) : List Char := t.holed.mark k

/-- The joined fragments are the markup with markers. -/
theorem join_fragments (t : Template) :
    Fragments.join t.fragments = String.ofList (t.mark 0) :=
  congrArg String.ofList (Holed.joinFrom_cut 0 t.holed)

@[simp] theorem holes_holedAttributes (attrs : List (List Char × List Piece)) :
    (holedAttributes attrs).holes = (attributeValues attrs).length := by
  induction attrs with
  | nil => rfl
  | cons attr attrs ih => simp [holedAttributes, attributeValues, ih]

/-! ### Ways to write a template -/

/-- The markups that a template may be written as. An element has an end tag, or it has no children
and is one tag. -/
inductive WrittenAs : Template → Holed → Prop
  | nil : WrittenAs nil []
  | text {ps next m} (hn : WrittenAs next m) : WrittenAs (text ps next) (Pieces.holed ps ++ m)
  | comment {content next m} (hn : WrittenAs next m) :
      WrittenAs (comment content next)
        (.ofChars (['<', '!', '-', '-'] ++ content ++ ['-', '-', '>']) ++ m)
  | element {name attrs children next inner m} (hc : WrittenAs children inner)
      (hn : WrittenAs next m) :
      WrittenAs (element name attrs children next)
        (.ofChars ('<' :: name) ++ holedAttributes attrs ++ .ofChars ['>'] ++ inner ++
          .ofChars ('<' :: '/' :: (name ++ ['>'])) ++ m)
  | emptyTag {name attrs next m} (hn : WrittenAs next m) :
      WrittenAs (element name attrs nil next)
        (.ofChars ('<' :: name) ++ holedAttributes attrs ++ .ofChars ['/', '>'] ++ m)

theorem writtenAs_holed (t : Template) : t.WrittenAs t.holed := by
  induction t with
  | nil => exact .nil
  | text ps next ih => exact .text ih
  | comment content next ih => exact .comment ih
  | element name attrs children next ihc ihn => exact .element ihc ihn

/-- However a template is written, its slots are the holes. -/
theorem WrittenAs.holes {t : Template} {m : Holed} (h : t.WrittenAs m) :
    m.holes = t.values.length := by
  induction h with
  | nil => rfl
  | text hn ih => simp [values, ih]
  | comment hn ih => simp [values, ih]
  | element hc hn ihc ihn => simp [values, ihc, ihn]
  | emptyTag hn ih => simp [values, ih]

section Mark

variable (k : Nat) (name : List Char) (attrs : List (List Char × List Piece)) (m : Holed)

/-- The attributes with markers for slots, numbered from `k` on. -/
def markAttributes : List Char := (holedAttributes attrs).mark k

theorem markAttributes_cons (ps : List Piece) :
    markAttributes k ((name, ps) :: attrs) =
      ' ' :: (name ++ '=' :: '"' :: (Pieces.mark k ps ++ '"' ::
        markAttributes (k + (Pieces.values ps).length) attrs)) := by
  simp [markAttributes, holedAttributes, Holed.mark_append, Pieces.mark]

theorem mark_text (ps : List Piece) :
    (Pieces.holed ps ++ m).mark k = Pieces.mark k ps ++ m.mark (k + (Pieces.values ps).length) := by
  rw [Holed.mark_append, Pieces.holes_holed]
  rfl

theorem mark_comment (content : List Char) :
    (Holed.ofChars (['<', '!', '-', '-'] ++ content ++ ['-', '-', '>']) ++ m).mark k =
      '<' :: '!' :: '-' :: '-' :: (content ++ '-' :: '-' :: '>' :: m.mark k) := by
  simp [Holed.mark_append]

theorem mark_element (inner : Holed) :
    (Holed.ofChars ('<' :: name) ++ holedAttributes attrs ++ .ofChars ['>'] ++ inner ++
        .ofChars ('<' :: '/' :: (name ++ ['>'])) ++ m).mark k =
      '<' :: (name ++ markAttributes k attrs ++ '>' ::
        (inner.mark (k + (attributeValues attrs).length) ++ '<' :: '/' :: (name ++ '>' ::
          m.mark (k + (attributeValues attrs).length + inner.holes)))) := by
  simp [markAttributes, Holed.mark_append, Nat.add_assoc]

theorem mark_emptyTag :
    (Holed.ofChars ('<' :: name) ++ holedAttributes attrs ++ .ofChars ['/', '>'] ++ m).mark k =
      '<' :: (name ++ markAttributes k attrs ++ '/' :: '>' ::
        m.mark (k + (attributeValues attrs).length)) := by
  simp [markAttributes, Holed.mark_append]

end Mark

/-! ### Output -/

/-- The template with the text at its start changed, if there is one. -/
def mapFirst (f : List Char → List Char) : Template → Template
  | text ps next => text (Pieces.mapHead f ps) next
  | t => t

/-- The template with the text at its end changed, if there is one. -/
def mapLast (f : List Char → List Char) : Template → Template
  | nil => nil
  | text ps nil => text (Pieces.mapLast f ps) nil
  | text ps next => text ps (next.mapLast f)
  | comment content next => comment content (next.mapLast f)
  | element name attrs children next => element name attrs children (next.mapLast f)

/-- The template without the blanks at its start and at its end. -/
def trimmed (t : Template) : Template :=
  (t.mapFirst (List.dropWhile isBlank)).mapLast (atEnd (List.dropWhile isBlank))

/-- An attribute value with one space for the blanks at its start and one for those at its end. -/
def normalValue (ps : List Piece) : List Piece :=
  Pieces.mapLast (atEnd collapseStart) (Pieces.mapHead collapseStart ps)

/-- The attributes with values for slots. -/
def attributeOutput : List (List Char × List Piece) → List Char
  | [] => []
  | (name, ps) :: attrs =>
    ' ' :: (name ++ '=' :: '"' :: (Pieces.output (normalValue ps) ++ '"' :: attributeOutput attrs))

/-- The element around its output. A void element with blank output is its start tag. -/
def elementOutput (name : List Char) (attrs : List (List Char × List Piece))
    (content : List Char) : List Char :=
  '<' :: (name ++ attributeOutput attrs ++ '>' ::
    if Dom.isVoid (String.ofList name) && content.all isBlank then []
    else content ++ '<' :: '/' :: (name ++ ['>']))

/-- The markup with values for slots and with one space for every run of blanks in a text. -/
def output : Template → List Char
  | nil => []
  | text ps next => Pieces.output (Pieces.mapLiterals collapse ps) ++ next.output
  | comment content next => ['<', '!', '-', '-'] ++ content ++ ['-', '-', '>'] ++ next.output
  | element name attrs children next => elementOutput name attrs children.output ++ next.output

end Template

end MarkupTemplate
