import MarkupTemplate.Dom.Void
import MarkupTemplate.Text.Blank

/-!
# Markup of one element

An element is written around the markup of its content. Attribute values and content are taken
as they are. A void element with blank content is written as its start tag alone.

## Main definitions

* `MarkupTemplate.elementMarkup`.
-/

namespace MarkupTemplate

/-- Whether a text has no character but blanks. -/
def isBlankText (s : String) : Bool := s.toList.all Text.isBlank

/-- The start tag with attribute values as they are. -/
def startMarkup (tag : String) (attrs : List (String × String)) : String :=
  "<" ++ tag ++ String.join (attrs.map fun attr => " " ++ attr.1 ++ "=\"" ++ attr.2 ++ "\"") ++ ">"

/-- The markup of an element around the markup of its content. -/
def elementMarkup (tag : String) (attrs : List (String × String)) (content : String) : String :=
  if Dom.isVoid tag && isBlankText content then startMarkup tag attrs
  else startMarkup tag attrs ++ content ++ "</" ++ tag ++ ">"

end MarkupTemplate
