import MarkupTemplate.KeyedList

/-!
# Document nodes

A document is a tree of nodes that own their children. A fragment holds a list of nodes on their
way to a parent: appending it appends what it holds, so a tree that is built by appending has no
fragment below its root.

## Main definitions

* `MarkupTemplate.Dom.Node` — elements, texts, comments, doctypes, instructions and fragments.
* `MarkupTemplate.Dom.Node.flatten` — a node with its fragments dissolved.
* `MarkupTemplate.Dom.Node.appendInPlace`, `MarkupTemplate.Dom.Node.removeInPlace` — changes to the
  children, with the node after them.
* `MarkupTemplate.Dom.Node.append`, `MarkupTemplate.Dom.Node.remove` — what they give if they do not
  fail.
* `MarkupTemplate.Dom.Node.setAttr?`, `MarkupTemplate.Dom.Node.attrs?` — attributes of elements.
* `MarkupTemplate.Dom.Node.textContent` — the text of a node and all nodes below it.
-/

namespace MarkupTemplate.Dom

/-- A node with all nodes below it. Attributes stand in the order in which they were first set. -/
inductive Node where
  | element (name : String) (attrs : KeyedList String String) (children : List Node)
  | text (content : String)
  | comment (content : String)
  /-- The part of the declaration after its keyword. -/
  | doctype (content : String)
  | instruction (target data : String)
  | fragment (children : List Node)

/-- The kinds of nodes. -/
inductive NodeKind where
  | element
  | text
  | instruction
  | comment
  | doctype
  | fragment
  deriving DecidableEq, Repr

/-- The number by which a document interface names a kind of node. -/
def NodeKind.number : NodeKind → Nat
  | .element => 1
  | .text => 3
  | .instruction => 7
  | .comment => 8
  | .doctype => 10
  | .fragment => 11

/-- The name of a kind of node in messages. -/
def NodeKind.name : NodeKind → String
  | .element => "Element"
  | .text => "Text"
  | .instruction => "ProcessingInstruction"
  | .comment => "Comment"
  | .doctype => "DocumentType"
  | .fragment => "DocumentFragment"

/-- Why a change of the children fails. -/
inductive EditError where
  /-- A node of this kind has no children. -/
  | childless (kind : NodeKind)
  | notAChild (index count : Nat)
  deriving DecidableEq, Repr

/-- The wording of an edit error. -/
def EditError.message : EditError → String
  | .childless kind => "Hierarchy request error: " ++ kind.name ++ " nodes cannot have children"
  | .notAChild index count =>
    "Node is not a child (index " ++ toString index ++ ", " ++ toString count ++ " children)"

namespace Node

/-- The kind of a node. -/
def kind : Node → NodeKind
  | element .. => .element
  | text _ => .text
  | comment _ => .comment
  | doctype _ => .doctype
  | instruction .. => .instruction
  | fragment _ => .fragment

/-- Whether a node is an element. -/
def isElement : Node → Bool
  | element .. => true
  | _ => false

/-- The content of a text node. -/
def text? : Node → Option String
  | text content => some content
  | _ => none

/-- The children of an element or a fragment; other nodes have none. -/
def children : Node → List Node
  | element _ _ cs => cs
  | fragment cs => cs
  | _ => []

mutual

/-- The node itself, or what a fragment holds with the fragments in it dissolved. -/
def flatten : Node → List Node
  | fragment cs => flattenAll cs
  | element name attrs cs => [element name attrs cs]
  | text content => [text content]
  | comment content => [comment content]
  | doctype content => [doctype content]
  | instruction target data => [instruction target data]

/-- The nodes of a list with fragments dissolved. -/
def flattenAll : List Node → List Node
  | [] => []
  | n :: ns => flatten n ++ flattenAll ns

end

/-- The fragment that holds the nodes of a list; fragments in the list are dissolved. -/
def ofList (ns : List Node) : Node := fragment (flattenAll ns)

/-- Adds a node behind the children of a node in its place, a fragment as the nodes it holds. The
node is returned also if that fails, as it is then. -/
def appendInPlace : (parent child : Node) → Except EditError Unit × Node
  | element name attrs cs, child => (.ok (), element name attrs (cs ++ child.flatten))
  | fragment cs, child => (.ok (), fragment (cs ++ child.flatten))
  | n, _ => (.error (.childless n.kind), n)

/-- Takes the child at `index` out of a list of children, which is returned with it. -/
def extract (index : Nat) (cs : List Node) : Except EditError Node × List Node :=
  match cs[index]? with
  | some child => (.ok child, cs.eraseIdx index)
  | none => (.error (.notAChild index cs.length), cs)

/-- Takes the child at `index` out of a node in its place. The node is returned also if that
fails, as it is then. -/
def removeInPlace (index : Nat) : Node → Except EditError Node × Node
  | element name attrs cs => (extract index cs).map id (element name attrs)
  | fragment cs => (extract index cs).map id fragment
  | n => (.error (.childless n.kind), n)

/-- The node with another one behind its children, a fragment as the nodes it holds. -/
def append (parent child : Node) : Except EditError Node :=
  let (answer, parent) := parent.appendInPlace child
  answer.map fun _ => parent

/-- The child at `index` of a node, and the node without it. -/
def remove (index : Nat) (parent : Node) : Except EditError (Node × Node) :=
  let (answer, parent) := parent.removeInPlace index
  answer.map fun child => (child, parent)

/-- Sets an attribute of an element; there is no answer for another node. -/
def setAttr? (name value : String) : Node → Option Node
  | element tag attrs cs => some (element tag (attrs.put name value) cs)
  | _ => none

/-- The attributes of an element. -/
def attrs? : Node → Option (KeyedList String String)
  | element _ attrs _ => some attrs
  | _ => none

mutual

/-- The text of a node and of all nodes below it. Comments, doctypes and instructions hold
none. -/
def textContent : Node → String
  | text content => content
  | element _ _ cs => textContentAll cs
  | fragment cs => textContentAll cs
  | comment _ => ""
  | doctype _ => ""
  | instruction .. => ""

/-- The text of a list of nodes. -/
def textContentAll : List Node → String
  | [] => ""
  | n :: ns => textContent n ++ textContentAll ns

end

mutual

/-- Decides whether two nodes agree in all their parts. -/
private def decEqNode : (m n : Node) → Decidable (m = n)
  | element a as cs, element b bs ds =>
    match decEq a b, decEq as bs, decEqNodes cs ds with
    | isTrue h, isTrue h', isTrue h'' => isTrue (by rw [h, h', h''])
    | isFalse h, _, _ => isFalse fun e => h (by injection e)
    | _, isFalse h, _ => isFalse fun e => h (by injection e)
    | _, _, isFalse h => isFalse fun e => h (by injection e)
  | text a, text b =>
    if h : a = b then isTrue (by rw [h]) else isFalse fun e => h (by injection e)
  | comment a, comment b =>
    if h : a = b then isTrue (by rw [h]) else isFalse fun e => h (by injection e)
  | doctype a, doctype b =>
    if h : a = b then isTrue (by rw [h]) else isFalse fun e => h (by injection e)
  | instruction a b, instruction c d =>
    if h : a = c ∧ b = d then isTrue (by rw [h.1, h.2])
    else isFalse fun e => h (by injection e with h₁ h₂; exact ⟨h₁, h₂⟩)
  | fragment cs, fragment ds =>
    match decEqNodes cs ds with
    | isTrue h => isTrue (by rw [h])
    | isFalse h => isFalse fun e => h (by injection e)
  | element .., text _ => isFalse nofun
  | element .., comment _ => isFalse nofun
  | element .., doctype _ => isFalse nofun
  | element .., instruction .. => isFalse nofun
  | element .., fragment _ => isFalse nofun
  | text _, element .. => isFalse nofun
  | text _, comment _ => isFalse nofun
  | text _, doctype _ => isFalse nofun
  | text _, instruction .. => isFalse nofun
  | text _, fragment _ => isFalse nofun
  | comment _, element .. => isFalse nofun
  | comment _, text _ => isFalse nofun
  | comment _, doctype _ => isFalse nofun
  | comment _, instruction .. => isFalse nofun
  | comment _, fragment _ => isFalse nofun
  | doctype _, element .. => isFalse nofun
  | doctype _, text _ => isFalse nofun
  | doctype _, comment _ => isFalse nofun
  | doctype _, instruction .. => isFalse nofun
  | doctype _, fragment _ => isFalse nofun
  | instruction .., element .. => isFalse nofun
  | instruction .., text _ => isFalse nofun
  | instruction .., comment _ => isFalse nofun
  | instruction .., doctype _ => isFalse nofun
  | instruction .., fragment _ => isFalse nofun
  | fragment _, element .. => isFalse nofun
  | fragment _, text _ => isFalse nofun
  | fragment _, comment _ => isFalse nofun
  | fragment _, doctype _ => isFalse nofun
  | fragment _, instruction .. => isFalse nofun

/-- Decides whether two lists of nodes agree. -/
private def decEqNodes : (ms ns : List Node) → Decidable (ms = ns)
  | [], [] => isTrue rfl
  | [], _ :: _ => isFalse nofun
  | _ :: _, [] => isFalse nofun
  | m :: ms, n :: ns =>
    match decEqNode m n, decEqNodes ms ns with
    | isTrue h, isTrue h' => isTrue (by rw [h, h'])
    | isFalse h, _ => isFalse fun e => h (by injection e)
    | _, isFalse h => isFalse fun e => h (by injection e)

end

instance : DecidableEq Node := decEqNode

end Node

end MarkupTemplate.Dom
