import MarkupTemplate.Template.Marker

/-!
# Fragments

A template is written as a list of literal fragments with one slot between each two. Joined with
the markers of their slots they are the markup of the template.

## Main definitions

* `MarkupTemplate.Fragments.slotCount` — the number of slots.
* `MarkupTemplate.Fragments.join` — the markup with markers.
-/

namespace MarkupTemplate.Fragments

/-- The number of slots between fragments. -/
def slotCount (fragments : List String) : Nat := fragments.length - 1

/-- The fragments with the markers of the slots from `slot` on. -/
def joinFrom (slot : Nat) : List String → List Char
  | [] => []
  | [s] => s.toList
  | s :: t :: rest => s.toList ++ marker slot ++ joinFrom (slot + 1) (t :: rest)

/-- The markup of the fragments. -/
def join (fragments : List String) : String := String.ofList (joinFrom 0 fragments)

end MarkupTemplate.Fragments
