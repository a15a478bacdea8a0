import MarkupTemplate.Engine.Basic

/-!
# Sessions

A session uses one engine while sources come and go. Sources are held by named slots, and by call
sites, which keep theirs for good. A source may have any address that is neither held nor still
listed in the cache: a dead entry keeps its address from being given away until it is swept.

## Main definitions

* `MarkupTemplate.Session` — an engine with the sources that are held.
* `MarkupTemplate.Session.held`, `MarkupTemplate.Session.isFree` — the state of an address.
* `MarkupTemplate.Session.create`, `MarkupTemplate.Session.share`, `MarkupTemplate.Session.pin`,
  `MarkupTemplate.Session.drop` — changes to what the slots hold.
* `MarkupTemplate.Session.tryCompile`, `MarkupTemplate.Session.compile`,
  `MarkupTemplate.Session.render` — use of the engine.
-/

namespace MarkupTemplate

/-- An engine with named slots and call sites that hold sources. -/
structure Session (ω ο : Type) where
  engine : Engine ω ο
  slots : KeyedList String Source
  sites : KeyedList Nat Source

namespace Session

variable {ω ο : Type}

/-- A session that holds nothing. -/
def ofEngine (engine : Engine ω ο) : Session ω ο := ⟨engine, [], []⟩

/-- Whether a source with this address is held. -/
def held (s : Session ω ο) (address : Nat) : Bool :=
  (s.slots.any fun slot => slot.2.address == address)
    || s.sites.any fun site => site.2.address == address

/-- Whether a new source may have this address. -/
def isFree (s : Session ω ο) (address : Nat) : Bool :=
  !s.held address && !(s.engine.cache.entries.keys.contains address)

/-- The least free address. One more address is tried than can be taken. -/
def freshAddress (s : Session ω ο) : Nat :=
  let taken := s.slots.length + s.sites.length + s.engine.cache.size
  ((List.range taken).find? s.isFree).getD taken

/-- Puts a source in a slot, in place of what the slot held before. -/
def hold (slot : String) (source : Source) (s : Session ω ο) : Session ω ο :=
  { s with slots := s.slots.put slot source }

/-- Puts a new source in a slot. What the slot held before is given up only then, so the address
of the new source differs from it. -/
def create (slot : String) (fragments : List String) (s : Session ω ο) : Session ω ο :=
  s.hold slot ⟨s.freshAddress, fragments⟩

/-- Puts the source of another slot in a slot as well. -/
def share (slot other : String) (s : Session ω ο) : Option (Session ω ο) :=
  (s.slots.get? other).map fun source => s.hold slot source

/-- The source of a call site, which the site makes at its first use. -/
def pinned (site : Nat) (fragments : List String) (s : Session ω ο) : Source × Session ω ο :=
  match s.sites.get? site with
  | some source => (source, s)
  | none =>
    let source := ⟨s.freshAddress, fragments⟩
    (source, { s with sites := s.sites.put site source })

/-- Puts the source of a call site in a slot. -/
def pin (slot : String) (site : Nat) (fragments : List String) (s : Session ω ο) : Session ω ο :=
  let (source, s) := s.pinned site fragments
  s.hold slot source

/-- Removes a slot. -/
def drop (slot : String) (s : Session ω ο) : Session ω ο :=
  { s with slots := s.slots.erase slot }

/-- Registers a component. -/
def register (name : String) (render : Props ο → Attempt ω (Rendered ω ο)) (s : Session ω ο) :
    Session ω ο :=
  { s with engine := { s.engine with registry := s.engine.registry.insert name render } }

/-- The compiled tree of a source, or why there is none, and in either case the session after
that. -/
def tryCompile (source : Source) (s : Session ω ο) :
    Except Error (Compiled ω ο) × Session ω ο :=
  let (answer, engine) := s.engine.compile s.held source
  (answer, { s with engine })

/-- The compiled tree of a source with the session after it, if the source compiles. -/
def compile (source : Source) (s : Session ω ο) : Except Error (Compiled ω ο × Session ω ο) :=
  let (answer, s) := s.tryCompile source
  answer.map fun compiled => (compiled, s)

/-- The tree of a source, if it has been compiled. -/
def cached? (source : Source) (s : Session ω ο) : Option (Compiled ω ο) :=
  s.engine.cache.get? s.held source.address

/-- The output of a source with values in its slots. -/
def render (source : Source) (values : List Value) (s : Session ω ο) :
    Attempt ω (Rendered ω ο) × Session ω ο :=
  let (output, engine) := s.engine.render s.held source values
  (output, { s with engine })

/-- Sweeps the dead entries of the cache. -/
def purge (s : Session ω ο) : Session ω ο :=
  { s with engine := { s.engine with cache := s.engine.cache.purge s.held } }

/-- The number of compiled trees whose source is held. -/
def liveCount (s : Session ω ο) : Nat := s.engine.cache.liveCount s.held

/-- The number of compiled trees in the cache. -/
def storedCount (s : Session ω ο) : Nat := s.engine.cache.size

end Session

end MarkupTemplate
