import MarkupTemplate.Dom.Node

/-!
# Nodes at a path

A path is a list of child positions, read from the root of a tree downwards.

## Main definitions

* `MarkupTemplate.Dom.Node.at?` — the node at a path.
* `MarkupTemplate.Dom.Node.replaceAt` — the tree with another node at a path.
-/

namespace MarkupTemplate.Dom.Node

/-- The node at a path below `n`. -/
def at? (n : Node) : List Nat → Option Node
  | [] => some n
  | i :: path => n.children[i]?.bind fun child => child.at? path

/-- The node with other children. A node that cannot have children stays as it is. -/
def withChildren (cs : List Node) : Node → Node
  | element name attrs _ => element name attrs cs
  | fragment _ => fragment cs
  | n => n

/-- The tree with the node at a path replaced. A path that leads nowhere changes nothing. -/
def replaceAt (n : Node) : (path : List Nat) → (new : Node) → Node
  | [], new => new
  | i :: path, new => n.withChildren (n.children.modify i fun child => child.replaceAt path new)

end MarkupTemplate.Dom.Node
