import MarkupTemplate.Engine.Session
import MarkupTemplate.Proofs.KeyedLists

/-!
# Chronicles of sessions

A session knows a source by its address, and an address may be given away again. A chronicle is a
session together with what the session does not know: every source gets a new identity when it is
created, slots remember the identity of what they hold, and a log keeps all successful compiles
with the components that were registered at that moment. None of this has an influence on the
session.

A run is a list of operations, in which a new source may be given any free address.

## Main definitions

* `MarkupTemplate.Operation` — what may be done with a session.
* `MarkupTemplate.Chronicle`, `MarkupTemplate.Chronicle.perform?`, `MarkupTemplate.Chronicle.run` —
  a session with its history.
* `MarkupTemplate.Chronicle.first?` — the first successful compile of an identity.

## Main results

* `MarkupTemplate.Session.tryCompile_of_cached?`, `MarkupTemplate.Session.tryCompile_of_not_cached`,
  `MarkupTemplate.Session.tryCompile_of_error` — what a compile does.
* `MarkupTemplate.Session.render_eq` — a render is a compile and the rendering of its tree.
-/

namespace MarkupTemplate

variable {ω ο : Type}

/-! ### Compiles of a session -/

namespace Session

/-- The compiled tree that a session would make next. -/
def nextCompiled (tree : Tree ω ο) (s : Session ω ο) : Compiled ω ο :=
  ⟨tree, s.engine.cache.nextSerial⟩

/-- The session with a tree stored for a source. -/
def store (source : Source) (tree : Tree ω ο) (s : Session ω ο) : Session ω ο :=
  { s with engine := { s.engine with
      cache := (s.engine.cache.store s.held source.address tree).2 } }

/-- A tree that is found is returned, and nothing is changed. -/
theorem tryCompile_of_cached? {s : Session ω ο} {source : Source} {compiled : Compiled ω ο}
    (h : s.cached? source = some compiled) : s.tryCompile source = (.ok compiled, s) := by
  rw [tryCompile, Engine.compile, Cache.compile,
    show s.engine.cache.get? _ _ = some compiled from h]

/-- Where no tree is found, one is made and stored, or nothing is changed. -/
theorem tryCompile_of_not_cached {s : Session ω ο} {source : Source}
    (h : s.cached? source = none) :
    s.tryCompile source =
      match Tree.compile s.engine.registry (Fragments.join source.fragments) with
      | .error error => (.error error, s)
      | .ok tree => (.ok (s.nextCompiled tree), s.store source tree) := by
  rw [tryCompile, Engine.compile, Cache.compile, show s.engine.cache.get? _ _ = none from h]
  cases Tree.compile s.engine.registry (Fragments.join source.fragments) <;> rfl

/-- A compile that fails changes nothing. -/
theorem tryCompile_of_error {s : Session ω ο} {source : Source} {error : Error}
    (h : (s.tryCompile source).1 = .error error) : s.tryCompile source = (.error error, s) := by
  cases hc : s.cached? source with
  | some found =>
    rw [tryCompile_of_cached? hc] at h
    cases h
  | none =>
    rw [tryCompile_of_not_cached hc] at h ⊢
    cases ht : Tree.compile s.engine.registry (Fragments.join source.fragments) with
    | error e =>
      rw [ht] at h
      cases h
      rfl
    | ok tree =>
      rw [ht] at h
      cases h

/-- A compile changes nothing but the cache. -/
theorem snd_tryCompile (s : Session ω ο) (source : Source) :
    (s.tryCompile source).2 =
      ⟨⟨s.engine.backend, s.engine.registry, (s.tryCompile source).2.engine.cache⟩,
        s.slots, s.sites⟩ := rfl

theorem compile_eq_ok_iff {s s' : Session ω ο} {source : Source} {compiled : Compiled ω ο} :
    s.compile source = .ok (compiled, s') ↔ s.tryCompile source = (.ok compiled, s') := by
  rw [compile]
  rcases s.tryCompile source with ⟨_ | found, t⟩ <;> simp [Except.map]

theorem compile_eq_error_iff {s : Session ω ο} {source : Source} {error : Error} :
    s.compile source = .error error ↔ (s.tryCompile source).1 = .error error := by
  rw [compile]
  rcases s.tryCompile source with ⟨_ | found, t⟩ <;> simp [Except.map]

theorem render_eq (s : Session ω ο) (source : Source) (values : List Value) :
    s.render source values =
      match s.tryCompile source with
      | (.ok compiled, s') => (compiled.tree.render s.engine.backend values, s')
      | (.error error, s') => (.fail error, s') := by
  have hb : (s.engine.compile s.held source).2.backend = s.engine.backend := rfl
  rw [render, Engine.render, tryCompile]
  rcases hc : s.engine.compile s.held source with ⟨_ | compiled, engine⟩
  · rfl
  · rw [hc] at hb
    exact congrArg (fun b => (compiled.tree.render b values, { s with engine })) hb

end Session

/-! ### Histories -/

/-- A successful compile: of which identity, with which components, and what it returned. -/
structure Success (ω ο : Type) where
  identity : Nat
  registry : Registry ω ο
  compiled : Compiled ω ο

/-- A session with its history. Identities count the creations of sources. -/
structure Chronicle (ω ο : Type) where
  session : Session ω ο
  /-- The sources by identity. -/
  sources : List Source
  /-- The identities of what the slots hold. -/
  owners : KeyedList String Nat
  /-- The successful compiles in the order of time. -/
  log : List (Success ω ο)

/-- What may be done with a session. -/
inductive Operation (ω ο : Type) where
  /-- Puts a new source with the given address in a slot. -/
  | create (slot : String) (address : Nat) (fragments : List String)
  /-- Puts the source of another slot in a slot as well. -/
  | share (slot other : String)
  | drop (slot : String)
  | register (name : String) (render : Props ο → Attempt ω (Rendered ω ο))
  /-- Looks for the compiled tree of what a slot holds. -/
  | get (slot : String)
  | compile (slot : String)
  | purge
  | render (slot : String) (values : List Value)

/-- Whether the operation leaves the registered components as they are. -/
def Operation.keepsRegistry : Operation ω ο → Bool
  | register .. => false
  | _ => true

namespace Chronicle

/-- The history of a new engine. -/
def start (backend : Backend ο) (registry : Registry ω ο) : Chronicle ω ο :=
  ⟨.ofEngine (.ofRegistry backend registry), [], [], []⟩

/-- Whether a slot holds a source of a certain identity. -/
def Holds (c : Chronicle ω ο) (slot : String) (identity : Nat) (source : Source) : Prop :=
  c.owners.get? slot = some identity ∧ c.session.slots.get? slot = some source

/-- The identities that are held, each as often as it is. -/
def held (c : Chronicle ω ο) : List Nat := c.owners.map Prod.snd

/-- The address that an identity has or had. -/
def address? (c : Chronicle ω ο) (identity : Nat) : Option Nat :=
  c.sources[identity]?.map Source.address

/-- The first successful compile of an identity. -/
def first? (c : Chronicle ω ο) (identity : Nat) : Option (Success ω ο) :=
  c.log.find? fun success => success.identity == identity

/-- The history after a successful compile. -/
def succeed (c : Chronicle ω ο) (identity : Nat) (compiled : Compiled ω ο)
    (session : Session ω ο) : Chronicle ω ο :=
  { c with session, log := c.log ++ [⟨identity, c.session.engine.registry, compiled⟩] }

/-- The history after a compile. A failure is not recorded. -/
def afterCompile (c : Chronicle ω ο) (identity : Nat) (source : Source) : Chronicle ω ο :=
  match c.session.tryCompile source with
  | (.ok compiled, session) => c.succeed identity compiled session
  | (.error _, session) => { c with session }

/-- The history after an operation, if the operation is possible. -/
def perform? (c : Chronicle ω ο) : Operation ω ο → Option (Chronicle ω ο)
  | .create slot address fragments =>
    if c.session.isFree address then
      some { c with
        session := c.session.hold slot ⟨address, fragments⟩
        sources := c.sources ++ [⟨address, fragments⟩]
        owners := c.owners.put slot c.sources.length }
    else none
  | .share slot other => do
    let session ← c.session.share slot other
    let identity ← c.owners.get? other
    return { c with session, owners := c.owners.put slot identity }
  | .drop slot => some { c with session := c.session.drop slot, owners := c.owners.erase slot }
  | .register name render => some { c with session := c.session.register name render }
  | .get slot => (c.session.slots.get? slot).map fun _ => c
  | .compile slot => do
    let source ← c.session.slots.get? slot
    let identity ← c.owners.get? slot
    return c.afterCompile identity source
  | .purge => some { c with session := c.session.purge }
  | .render slot values => do
    let source ← c.session.slots.get? slot
    let identity ← c.owners.get? slot
    return { c.afterCompile identity source with session := (c.session.render source values).2 }

/-- The history after a list of operations, if each of them is possible in its turn. -/
def run : List (Operation ω ο) → Chronicle ω ο → Option (Chronicle ω ο)
  | [], c => some c
  | op :: ops, c => (c.perform? op).bind (run ops)

/-! ### Frames -/

theorem session_afterCompile (c : Chronicle ω ο) (i : Nat) (source : Source) :
    (c.afterCompile i source).session = (c.session.tryCompile source).2 := by
  rw [afterCompile]
  rcases c.session.tryCompile source with ⟨_ | compiled, session⟩ <;> rfl

@[simp] theorem slots_afterCompile (c : Chronicle ω ο) (i : Nat) (source : Source) :
    (c.afterCompile i source).session.slots = c.session.slots := by
  rw [session_afterCompile]
  rfl

@[simp] theorem sites_afterCompile (c : Chronicle ω ο) (i : Nat) (source : Source) :
    (c.afterCompile i source).session.sites = c.session.sites := by
  rw [session_afterCompile]
  rfl

/-- A render leaves the session as the compile in it does. -/
theorem session_render (c : Chronicle ω ο) (i : Nat) (source : Source) (values : List Value) :
    { c.afterCompile i source with session := (c.session.render source values).2 } =
      c.afterCompile i source := by
  rw [Session.render_eq, afterCompile]
  rcases c.session.tryCompile source with ⟨_ | compiled, session⟩ <;> rfl

/-! ### First compiles -/

theorem first?_succeed (c : Chronicle ω ο) (i : Nat) (compiled : Compiled ω ο)
    (session : Session ω ο) (j : Nat) :
    (c.succeed i compiled session).first? j =
      (c.first? j).or (if i = j then some ⟨i, c.session.engine.registry, compiled⟩ else none) := by
  rw [first?, succeed, List.find?_append, List.find?_singleton]
  simp only [beq_iff_eq]
  rfl

/-- A compile is the first of an identity that had none. -/
theorem first?_succeed_self (c : Chronicle ω ο) {i : Nat} (h : c.first? i = none)
    (compiled : Compiled ω ο) (session : Session ω ο) :
    (c.succeed i compiled session).first? i =
      some ⟨i, c.session.engine.registry, compiled⟩ := by
  rw [first?_succeed, h, Option.none_or, if_pos rfl]

/-- A compile of one identity is not the first of another. -/
theorem first?_succeed_of_ne (c : Chronicle ω ο) {i j : Nat} (h : j ≠ i)
    (compiled : Compiled ω ο) (session : Session ω ο) :
    (c.succeed i compiled session).first? j = c.first? j := by
  rw [first?_succeed, if_neg h.symm, Option.or_none]

theorem first?_mem {c : Chronicle ω ο} {i : Nat} {s : Success ω ο} (h : c.first? i = some s) :
    s ∈ c.log ∧ s.identity = i := by
  have hi := List.find?_some h
  exact ⟨List.mem_of_find?_eq_some h, beq_iff_eq.mp hi⟩

theorem exists_first?_of_mem {c : Chronicle ω ο} {s : Success ω ο} (h : s ∈ c.log) :
    ∃ f, c.first? s.identity = some f :=
  Option.isSome_iff_exists.mp (List.find?_isSome.mpr ⟨s, h, beq_self_eq_true s.identity⟩)

end Chronicle

end MarkupTemplate
