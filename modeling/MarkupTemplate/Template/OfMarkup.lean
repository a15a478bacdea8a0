import MarkupTemplate.Dom.Serialize
import MarkupTemplate.Markup.Forest
import MarkupTemplate.Template.Marker
import MarkupTemplate.Text.Uppercase

/-!
# From markup to trees

Markup with markers is read strictly, inside a container element, and its nodes become a template
tree. Texts have their blanks collapsed and are split at markers, and so are attribute values,
of which only the edges are collapsed. Elements whose name begins with an upper-case letter are
calls of components. Comments, doctypes and instructions become literal markup.

References in the markup are to be kept for the output. Every ampersand is therefore escaped
before reading, which makes reading give it back, and is restored in what reading does not
unescape.

## Main definitions

* `MarkupTemplate.Tree.ofNode`, `MarkupTemplate.Tree.ofNodes` — the trees of document nodes.
* `MarkupTemplate.Tree.ofForest` — the tree of what has been read, without the container if it
  holds a single node.
* `MarkupTemplate.Tree.ofMarkup` — the tree of a text.
-/

namespace MarkupTemplate

open Dom Text

/-- Writes every ampersand as a reference. -/
def escapeAmpersands (cs : List Char) : List Char :=
  cs.flatMap fun c => if c = '&' then ['&', 'a', 'm', 'p', ';'] else [c]

/-- Reads every reference to an ampersand back, from left to right. -/
def restoreAmpersands : List Char → List Char
  | '&' :: 'a' :: 'm' :: 'p' :: ';' :: cs => '&' :: restoreAmpersands cs
  | c :: cs => c :: restoreAmpersands cs
  | [] => []

/-- Whether a name is that of a component. -/
def isComponentName (name : String) : Bool := name.toList.head?.any isUppercase

/-- The pieces of an attribute value. An empty value is a single empty literal. -/
def AttrValue.ofText (value : String) : AttrValue :=
  if value = "" then .single (.text "")
  else
    match (decodeMarkers (collapseEdges value.toList)).map Segment.part with
    | [part] => .single part
    | ps => .parts ps

/-- Attributes with their values split into pieces. -/
def Attributes.ofTexts (attrs : KeyedList String String) : Attributes :=
  attrs.map fun attr => (attr.1, .ofText attr.2)

namespace Tree

variable {ω ο : Type}

/-- The trees of a text. -/
def ofText (content : String) : List (Tree ω ο) :=
  (decodeMarkers (collapse content.toList)).map Segment.tree

/-- The literal markup of a node. -/
def ofLiteral (n : Node) : Tree ω ο :=
  .text (String.ofList (restoreAmpersands n.outerHtml.toList))

/-- The component for a tag, or the error that it has none. -/
def resolve (registry : Registry ω ο) (tag : String) : Except Error (Component ω ο) :=
  match registry.resolve? tag with
  | some c => .ok c
  | none => .error (.unresolvedComponent tag)

/-- An element or a call around trees that are still to be made. The component is looked up
before they are. -/
def ofElement (registry : Registry ω ο) (name : String) (attrs : KeyedList String String)
    (children : Except Error (List (Tree ω ο))) : Except Error (Tree ω ο) :=
  if isComponentName name then do
    let c ← resolve registry name
    return .component c (.ofTexts attrs) (← children)
  else do
    return .element name (.ofTexts attrs) (← children)

mutual

/-- The trees of a node. Only a text can have another number of them than one. -/
def ofNode (registry : Registry ω ο) : Node → Except Error (List (Tree ω ο))
  | .text content => .ok (ofText content)
  | .element name attrs children =>
    (ofElement registry name attrs (ofNodes registry children)).map fun t => [t]
  | .comment content => .ok [ofLiteral (.comment content)]
  | .doctype content => .ok [ofLiteral (.doctype content)]
  | .instruction target data => .ok [ofLiteral (.instruction target data)]
  | .fragment children => .ok [ofLiteral (.fragment children)]

/-- The trees of a list of nodes. The first unknown component in document order is the error. -/
def ofNodes (registry : Registry ω ο) : List Node → Except Error (List (Tree ω ο))
  | [] => .ok []
  | n :: ns => do
    let ts ← ofNode registry n
    let us ← ofNodes registry ns
    return ts ++ us

end

/-- The tree of a single node: its only tree, or a container of its trees. -/
def ofRoot (registry : Registry ω ο) (n : Node) : Except Error (Tree ω ο) := do
  match ← ofNode registry n with
  | [t] => return t
  | ts => return .component (← resolve registry containerTag) [] ts

/-- The tree of the nodes that were read. The container that holds a single node gives way to
it. Markup that closes the container itself leaves several nodes, which are put in a new one. -/
def ofForest (registry : Registry ω ο) (nodes : List Node) : Except Error (Tree ω ο) :=
  let (name, attrs, children) : String × KeyedList String String × List Node :=
    match nodes with
    | [.element name attrs children] => (name, attrs, children)
    | nodes => (containerTag, [], nodes)
  match children with
  | [n] => ofRoot registry n
  | ns => ofElement registry name attrs (ofNodes registry ns)

/-- The markup without blanks at its ends and with escaped ampersands. -/
def prepare (markup : String) : String :=
  String.ofList (escapeAmpersands (trim markup.toList))

/-- The markup as it is read, inside a container. -/
def wrap (markup : String) : String :=
  "<" ++ containerTag ++ ">" ++ prepare markup ++ "</" ++ containerTag ++ ">"

/-- The tree of a text, for the components of a registry. -/
def ofMarkup (registry : Registry ω ο) (markup : String) : Except Error (Tree ω ο) :=
  match Markup.parse .strict (wrap markup) with
  | .ok nodes => ofForest registry nodes
  | .error error => .error (.parse error)

end Tree

end MarkupTemplate
