/-!
# Void and raw-text elements

A void element without content is written without an end tag, and a lenient reader expects none.
The text in a raw-text element is written as it stands.

## Main definitions

* `MarkupTemplate.Dom.voidElements`, `MarkupTemplate.Dom.isVoid`.
* `MarkupTemplate.Dom.isRawText`.
-/

namespace MarkupTemplate.Dom

/-- The names of the void elements. -/
def voidElements : List String :=
  ["area", "base", "br", "col", "command", "embed", "hr", "img", "input", "keygen", "link",
    "menuitem", "meta", "param", "source", "track", "wbr"]

/-- Whether `tag` names a void element. Names are compared letter by letter. -/
def isVoid (tag : String) : Bool := voidElements.contains tag

/-- Whether the text in an element named `tag` is written without escapes. -/
def isRawText (tag : String) : Bool := tag == "script" || tag == "style"

end MarkupTemplate.Dom
