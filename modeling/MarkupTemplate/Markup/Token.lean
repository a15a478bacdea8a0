import MarkupTemplate.Markup.Fault

/-!
# Tokens of markup

Markup is read as a stream of tokens. The stream ends at the end of the text or at the first
fault. Names in tokens are whole, with the part before a colon; the local name is what follows the
first colon.

## Main definitions

* `MarkupTemplate.Markup.Token` — tags, pieces of text, and what is neither.
* `MarkupTemplate.Markup.Stop` — a fault with the text that was not read.
-/

namespace MarkupTemplate.Markup

/-- A token of markup. Attribute values are unescaped, the content of all other tokens is as it
stands in the text. -/
inductive Token where
  | startTag (name : List Char) (attrs : List (List Char × List Char))
  /-- A start tag that ends with a slash stands for an element without content. -/
  | emptyTag (name : List Char) (attrs : List (List Char × List Char))
  | endTag (name : List Char)
  | text (content : List Char)
  | reference (body : List Char)
  | cdata (content : List Char)
  | comment (content : List Char)
  | doctype (content : List Char)
  | instruction (content : List Char)
  | declaration (content : List Char)
  deriving DecidableEq, Repr

/-- A fault that ends the stream, with the text from the faulty position on. -/
structure Stop where
  fault : Fault
  rest : List Char
  deriving DecidableEq, Repr

end MarkupTemplate.Markup
