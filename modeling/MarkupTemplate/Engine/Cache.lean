import MarkupTemplate.Template.Fold
import MarkupTemplate.Template.Fragments

/-!
# The cache of compiled templates

Compiled trees are kept under the address of the fragments they were compiled from, not under
their text. An entry is live as long as its address is held, that is as long as somebody still has
the fragments. Dead entries are not found any more, and they are swept whenever a new tree is
stored. Trees carry a serial number that tells trees of equal content apart.

## Main definitions

* `MarkupTemplate.Source` — fragments with their address.
* `MarkupTemplate.Cache`, `MarkupTemplate.Cache.get?`, `MarkupTemplate.Cache.compile`.
* `MarkupTemplate.Cache.liveCount`, `MarkupTemplate.Cache.purge`.
-/

namespace MarkupTemplate

/-- Fragments and the address that tells them from others of equal text. -/
structure Source where
  address : Nat
  fragments : List String
  deriving DecidableEq, Repr

/-- A compiled tree. -/
structure Compiled (ω ο : Type) where
  tree : Tree ω ο
  serial : Nat

/-- Compiled trees by address, with the serial number for the next one. -/
structure Cache (ω ο : Type) where
  entries : KeyedList Nat (Compiled ω ο)
  nextSerial : Nat

namespace Cache

variable {ω ο : Type}

/-- No tree. -/
def empty : Cache ω ο := ⟨[], 0⟩

/-- The live tree under an address. -/
def get? (held : Nat → Bool) (address : Nat) (c : Cache ω ο) : Option (Compiled ω ο) :=
  if held address then c.entries.get? address else none

/-- The cache without its dead entries. -/
def purge (held : Nat → Bool) (c : Cache ω ο) : Cache ω ο :=
  { c with entries := c.entries.filter fun entry => held entry.1 }

/-- Stores a new tree and sweeps dead entries. -/
def store (held : Nat → Bool) (address : Nat) (tree : Tree ω ο) (c : Cache ω ο) :
    Compiled ω ο × Cache ω ο :=
  let compiled := ⟨tree, c.nextSerial⟩
  (compiled, ⟨(c.purge held).entries.put address compiled, c.nextSerial + 1⟩)

/-- The tree of a source, compiled if there is no live one, and the cache after that. If the source
does not compile, the error comes before anything is stored or swept. -/
def compile (held : Nat → Bool) (registry : Registry ω ο) (source : Source) (c : Cache ω ο) :
    Except Error (Compiled ω ο) × Cache ω ο :=
  match c.get? held source.address with
  | some compiled => (.ok compiled, c)
  | none =>
    match Tree.compile registry (Fragments.join source.fragments) with
    | .error error => (.error error, c)
    | .ok tree =>
      let (compiled, c) := c.store held source.address tree
      (.ok compiled, c)

/-- The number of live entries. -/
def liveCount (held : Nat → Bool) (c : Cache ω ο) : Nat :=
  (c.entries.filter fun entry => held entry.1).length

/-- The number of entries, dead ones included. -/
def size (c : Cache ω ο) : Nat := c.entries.length

end Cache

end MarkupTemplate
