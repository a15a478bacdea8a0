import MarkupTemplate.Template.ElementMarkup
import MarkupTemplate.Template.OfMarkup

/-!
# Folding static parts

The parts of a tree that hold no reference and no component are rendered when the template is
compiled. An element of which only text is left in the content, and only literals in the
attributes, becomes the text of its markup, and adjacent texts become one.

## Main definitions

* `MarkupTemplate.Tree.fold` — the tree with its static parts folded.
* `MarkupTemplate.Tree.compile` — the folded tree of a text.
-/

namespace MarkupTemplate

/-- The names and texts of attributes, if all values are single literals. -/
def Attributes.literals? : Attributes → Option (List (String × String))
  | [] => some []
  | (name, .single (.text s)) :: attrs => (literals? attrs).map ((name, s) :: ·)
  | _ :: _ => none

namespace Tree

variable {ω ο : Type}

/-- The markup that folded children amount to, if they are static. -/
def content? : List (Tree ω ο) → Option String
  | [] => some ""
  | [.text markup] => some markup
  | _ => none

/-- Puts a tree in front of a list, joining two texts that meet. -/
def consMerged : Tree ω ο → List (Tree ω ο) → List (Tree ω ο)
  | .text a, .text b :: ts => .text (a ++ b) :: ts
  | t, ts => t :: ts

/-- An element with folded children: the text of its markup, if it is static. -/
def foldElement (tag : String) (attrs : Attributes) (children : List (Tree ω ο)) : Tree ω ο :=
  match content? children, attrs.literals? with
  | some content, some literals => .text (elementMarkup tag literals content)
  | _, _ => .element tag attrs children

mutual

/-- The tree with every static part replaced by its markup. -/
def fold : Tree ω ο → Tree ω ο
  | text markup => text markup
  | reference index => reference index
  | element tag attrs children => foldElement tag attrs (foldAll children)
  | component c attrs children => component c attrs (foldAll children)

/-- The list of trees, folded, with adjacent texts joined. -/
def foldAll : List (Tree ω ο) → List (Tree ω ο)
  | [] => []
  | t :: ts => consMerged (fold t) (foldAll ts)

end

/-- The folded tree of a text. -/
def compile (registry : Registry ω ο) (markup : String) : Except Error (Tree ω ο) :=
  (ofMarkup registry markup).map fold

end Tree

end MarkupTemplate
