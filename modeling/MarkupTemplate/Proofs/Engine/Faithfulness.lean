import MarkupTemplate.Proofs.Engine.Soundness
import Mathlib.Data.List.Dedup

/-!
# The cache is faithful over whole runs

After every run the cache answers for a held source as if it kept the first successful compile of
its identity, and nothing else. What happened to other sources, of equal text or at the same address
in earlier times, makes no difference, and neither do components that were registered later.

## Main definitions

* `MarkupTemplate.Chronicle.FaithfulAt` — what holds of a source that is held.
* `MarkupTemplate.Chronicle.Faithful` — what holds of the session.

## Main results

* `MarkupTemplate.Chronicle.faithful_of_run` — every run leads to a faithful cache.
* `MarkupTemplate.Chronicle.render_of_run` — rendering through a session is rendering fragments.
-/

namespace MarkupTemplate

variable {ω ο : Type}

/-- What a session answers about a source of the given identity. -/
structure Chronicle.FaithfulAt (c : Chronicle ω ο) (i : Nat) (source : Source) : Prop where
  /-- A tree is found exactly if a compile of the identity has succeeded. -/
  found_iff : (c.session.cached? source).isSome ↔ ∃ s ∈ c.log, s.identity = i
  /-- What is found is the tree of the first success. -/
  found : c.session.cached? source = (c.first? i).map Success.compiled
  /-- That is the tree of the source for the components of that time. -/
  made : ∀ s, c.first? i = some s →
    Tree.compile s.registry (Fragments.join source.fragments) = .ok s.compiled.tree
  /-- Another compile returns it, and changes nothing. -/
  again : ∀ s, c.first? i = some s → c.session.compile source = .ok (s.compiled, c.session)
  /-- A first compile succeeds as the source and the present components have it. -/
  anew : c.first? i = none → (c.session.compile source).map Prod.fst =
    (Tree.compile c.session.engine.registry (Fragments.join source.fragments)).map
      c.session.nextCompiled
  /-- After a first success no dead entry is kept. -/
  swept : ∀ compiled session, c.first? i = none →
    c.session.compile source = .ok (compiled, session) → session.storedCount = session.liveCount
  /-- A failure changes nothing, whether it is met in a compile or in a render. -/
  failed : ∀ error, c.session.compile source = .error error →
    (c.session.tryCompile source).2 = c.session ∧ c.afterCompile i source = c ∧
      ∀ values, c.session.render source values = (.fail error, c.session)
  /-- A render is that of the tree of the first success, or that of a new tree. -/
  rendered : ∀ values, (c.session.render source values).1 =
    match (c.first? i).map (fun s => s.compiled.tree),
      Tree.compile c.session.engine.registry (Fragments.join source.fragments) with
    | some tree, _ => tree.render c.session.engine.backend values
    | none, .ok tree => tree.render c.session.engine.backend values
    | none, .error error => .fail error

/-- What a session answers, as far as its history decides it. -/
structure Chronicle.Faithful (c : Chronicle ω ο) : Prop where
  /-- Every source in a slot has an identity, and is answered about by it. -/
  source : ∀ slot source, c.session.slots.get? slot = some source →
    ∃ i, c.Holds slot i source ∧ c.FaithfulAt i source
  /-- All successes of an identity returned the tree of the first. -/
  repeated : ∀ s ∈ c.log, (c.first? s.identity).map Success.compiled = some s.compiled
  /-- No tree was returned for two identities. -/
  distinct : ∀ s ∈ c.log, ∀ f ∈ c.log, s.compiled.serial = f.compiled.serial →
    s.identity = f.identity
  /-- The live trees are counted by the identities that are held and have been compiled. -/
  liveCount : c.session.liveCount = c.held.dedup.countP fun i => (c.first? i).isSome

namespace Chronicle

variable {c : Chronicle ω ο}

/-! ### Counting -/

/-- After a tree has been stored every entry is held. -/
theorem storedCount_store {s : Session ω ο} {source : Source} (h : s.held source.address = true)
    (tree : Tree ω ο) : (s.store source tree).storedCount = (s.store source tree).liveCount := by
  refine (congrArg List.length (List.filter_eq_self.mpr fun e he => ?_)).symm
  rcases KeyedList.mem_put he with rfl | he
  · exact h
  · exact (List.mem_filter.mp he).2

theorem Sound.address?_inj (h : c.Sound) {i j : Nat} (hi : i ∈ c.held) (hj : j ∈ c.held)
    (hij : (c.address? i).getD 0 = (c.address? j).getD 0) : i = j := by
  obtain ⟨_, source, _, hs⟩ := h.source_of_held hi
  obtain ⟨_, source', _, hs'⟩ := h.source_of_held hj
  refine h.unique i hi j hj ?_
  simpa [address?, hs, hs'] using hij

/-- Live entries stand for the identities that are held and have been compiled. -/
theorem Sound.liveCount (h : c.Sound) :
    c.session.liveCount = c.held.dedup.countP fun i => (c.first? i).isSome := by
  have hmap : (((c.held.dedup.filter fun i => (c.first? i).isSome)).map
      fun i => (c.address? i).getD 0).Nodup := by
    refine (c.held.nodup_dedup.filter _).map_on fun i hi j hj => h.address?_inj ?_ ?_
    · exact List.mem_dedup.mp (List.mem_of_mem_filter hi)
    · exact List.mem_dedup.mp (List.mem_of_mem_filter hj)
  have hperm := (List.perm_ext_iff_of_nodup
    (KeyedList.nodup_keys_filter h.nodup fun e => c.session.held e.1) hmap).mpr fun a => ?_
  · have hl := hperm.length_eq
    rw [KeyedList.keys, List.length_map, List.length_map] at hl
    rw [List.countP_eq_length_filter]
    exact hl
  simp only [KeyedList.keys, List.mem_map, List.mem_filter, List.mem_dedup]
  constructor
  · rintro ⟨e, ⟨he, hheld⟩, rfl⟩
    obtain ⟨i, hi, ha⟩ := (h.held_iff e.1).mp hheld
    obtain ⟨k, s, _, hk, _, hu⟩ := h.tenant e he
    have hik : i = k := hu i hi ha
    exact ⟨i, ⟨hi, by rw [hik, hk, Option.isSome_some]⟩, by rw [ha, Option.getD_some]⟩
  · rintro ⟨i, ⟨hi, hf⟩, rfl⟩
    obtain ⟨s, hs⟩ := Option.isSome_iff_exists.mp hf
    obtain ⟨_, source, _, hsource⟩ := h.source_of_held hi
    have ha : c.address? i = some source.address := by simp [address?, hsource]
    rw [ha, Option.getD_some]
    exact ⟨_, ⟨KeyedList.mem_of_get? (h.kept i hi s hs _ ha),
      (h.held_iff _).mpr ⟨i, hi, ha⟩⟩, rfl⟩

/-! ### Faithful caches -/

theorem Sound.faithfulAt (h : c.Sound) {i : Nat} {source : Source} (hi : i ∈ c.held)
    (hs : c.sources[i]? = some source) : c.FaithfulAt i source := by
  have hc := h.cached? hi hs
  have ha : c.session.held source.address = true :=
    (h.held_iff _).mpr ⟨i, hi, by simp [address?, hs]⟩
  have hagain (s : Success ω ο) (hf : c.first? i = some s) :
      c.session.tryCompile source = (.ok s.compiled, c.session) :=
    Session.tryCompile_of_cached? (by rw [hc, hf, Option.map_some])
  have hnone (hf : c.first? i = none) : c.session.cached? source = none := by
    rw [hc, hf, Option.map_none]
  refine
    { found_iff := ?_, found := hc, made := fun s hf => h.made i s hf source hs
      again := fun s hf => Session.compile_eq_ok_iff.mpr (hagain s hf)
      anew := ?_, swept := ?_, failed := ?_, rendered := ?_ }
  · rw [hc, Option.isSome_map, first?, List.find?_isSome]
    simp only [beq_iff_eq]
  · intro hf
    rw [Session.compile, Session.tryCompile_of_not_cached (hnone hf)]
    cases Tree.compile c.session.engine.registry (Fragments.join source.fragments) <;> rfl
  · intro compiled session hf hok
    rw [Session.compile_eq_ok_iff, Session.tryCompile_of_not_cached (hnone hf)] at hok
    cases ht : Tree.compile c.session.engine.registry (Fragments.join source.fragments) with
    | error error =>
      rw [ht] at hok
      cases hok
    | ok tree =>
      rw [ht] at hok
      cases hok
      exact storedCount_store ha tree
  · intro error he
    have he := Session.tryCompile_of_error (Session.compile_eq_error_iff.mp he)
    exact ⟨by rw [he], by rw [Chronicle.afterCompile, he], fun values => by
      rw [Session.render_eq, he]⟩
  · intro values
    rw [Session.render_eq]
    cases hf : c.first? i with
    | some s => rw [hagain s hf, Option.map_some]
    | none =>
      rw [Session.tryCompile_of_not_cached (hnone hf), Option.map_none]
      cases Tree.compile c.session.engine.registry (Fragments.join source.fragments) <;> rfl

theorem Sound.faithful (h : c.Sound) : c.Faithful where
  source slot source hs := by
    obtain ⟨i, hi⟩ := h.holds_iff hs
    exact ⟨i, hi, h.faithfulAt (mem_held_of_holds hi) (h.source_of_holds hi)⟩
  repeated s hs := by
    obtain ⟨f, hf⟩ := exists_first?_of_mem hs
    rw [hf, Option.map_some, h.repeated s hs f hf]
  distinct := h.serial_inj
  liveCount := h.liveCount

/-! ### New engines -/

/-- A new engine compiles a source for its components and renders the tree. -/
theorem render_start (backend : Backend ο) (registry : Registry ω ο) (source : Source)
    (values : List Value) :
    ((start backend registry).session.render source values).1 =
      (do
        let tree ← Attempt.ofExcept (Tree.compile registry (Fragments.join source.fragments))
        tree.render backend values) := by
  have hnew : (start backend registry).session.cached? source = none := rfl
  have hstart : (start backend registry).session.engine.registry = registry := rfl
  rw [Session.render_eq, Session.tryCompile_of_not_cached hnew, hstart]
  cases Tree.compile registry (Fragments.join source.fragments) <;> rfl

/-- Without components of its own, a new engine renders the fragments of a source. -/
theorem render_start_empty (backend : Backend ο) (source : Source) (values : List Value) :
    ((start backend .empty : Chronicle ω ο).session.render source values).1 =
      renderFragments backend source.fragments values :=
  render_start backend .empty source values

/-! ### Runs without new components -/

/-- Everything in the history goes back to one backend and one registry. -/
structure Uses (backend : Backend ο) (registry : Registry ω ο) (c : Chronicle ω ο) : Prop where
  log : ∀ s ∈ c.log, s.registry = registry
  backend : c.session.engine.backend = backend
  registry : c.session.engine.registry = registry

namespace Uses

variable {backend : Backend ο} {registry : Registry ω ο}

theorem afterCompile (h : Uses backend registry c) (i : Nat) (source : Source) :
    Uses backend registry (c.afterCompile i source) := by
  refine ⟨fun s hs => ?_, ?_, ?_⟩
  · rw [Chronicle.afterCompile] at hs
    split at hs
    · rcases List.mem_append.mp hs with hs | hs
      · exact h.log s hs
      · cases List.mem_singleton.mp hs
        exact h.registry
    · exact h.log s hs
  · rw [session_afterCompile, Session.snd_tryCompile]
    exact h.backend
  · rw [session_afterCompile, Session.snd_tryCompile]
    exact h.registry

theorem perform? (h : Uses backend registry c) {op : Operation ω ο} (hop : op.keepsRegistry = true)
    {c' : Chronicle ω ο} (hc : c.perform? op = some c') : Uses backend registry c' := by
  cases op with
  | create slot address fragments =>
    rw [Chronicle.perform?] at hc
    split at hc
    · cases hc
      exact { h with }
    · cases hc
  | share slot other =>
    simp only [Chronicle.perform?, Session.share, Option.bind_eq_bind, Option.bind_eq_some_iff,
      Option.map_eq_some_iff, Option.pure_def] at hc
    obtain ⟨_, ⟨_, _, rfl⟩, _, _, hc⟩ := hc
    cases hc
    exact { h with }
  | register => cases hop
  | get slot =>
    obtain ⟨_, _, rfl⟩ := Option.map_eq_some_iff.mp hc
    exact h
  | compile slot =>
    simp only [Chronicle.perform?, Option.bind_eq_bind, Option.bind_eq_some_iff,
      Option.pure_def] at hc
    obtain ⟨source, _, i, _, hc⟩ := hc
    cases hc
    exact h.afterCompile i source
  | render slot values =>
    simp only [Chronicle.perform?, Option.bind_eq_bind, Option.bind_eq_some_iff,
      Option.pure_def] at hc
    obtain ⟨source, _, i, _, hc⟩ := hc
    cases hc
    rw [session_render]
    exact h.afterCompile i source
  | drop | purge =>
    cases hc
    exact { h with }

theorem run {ops : List (Operation ω ο)} {c' : Chronicle ω ο} (h : Uses backend registry c)
    (hops : ∀ op ∈ ops, op.keepsRegistry = true) (hc : Chronicle.run ops c = some c') :
    Uses backend registry c' := by
  induction ops generalizing c with
  | nil =>
    cases hc
    exact h
  | cons op ops ih =>
    obtain ⟨d, hd, hc⟩ := Option.bind_eq_some_iff.mp hc
    obtain ⟨hop, hops⟩ := List.forall_mem_cons.mp hops
    exact ih (h.perform? hop hd) hops hc

/-- With the components of the start, a render is that of a new engine. -/
theorem render (h : Uses backend registry c) {i : Nat} {source : Source}
    (hf : c.FaithfulAt i source) (values : List Value) :
    (c.session.render source values).1 =
      ((start backend registry).session.render source values).1 := by
  rw [hf.rendered, render_start, h.backend, h.registry]
  cases hs : c.first? i with
  | some s =>
    have ht := hf.made s hs
    rw [h.log s (first?_mem hs).1] at ht
    rw [ht]
    rfl
  | none => cases Tree.compile registry (Fragments.join source.fragments) <;> rfl

end Uses

/-- **Rendering through a session.** After every run of a new engine with no components but the
built-in one, a source that is held is rendered as its fragments are on their own. -/
theorem render_of_run {backend : Backend ο} {ops : List (Operation ω ο)}
    (h : run ops (start backend .empty) = some c) (hops : ∀ op ∈ ops, op.keepsRegistry = true)
    {slot : String} {source : Source} (hs : c.session.slots.get? slot = some source)
    (values : List Value) :
    (c.session.render source values).1 = renderFragments backend source.fragments values := by
  obtain ⟨i, _, hi⟩ := ((sound_start backend .empty).run h).faithful.source slot source hs
  have hu : Uses backend .empty (start backend .empty : Chronicle ω ο) := ⟨nofun, rfl, rfl⟩
  exact ((hu.run hops h).render hi values).trans (render_start_empty backend source values)

/-- **The cache is faithful over whole runs.** After every run of a new session the cache is
faithful to the identities of sources. If no component was registered in the run, a render of a
source that is held is that of a new engine. -/
theorem faithful_of_run {backend : Backend ο} {registry : Registry ω ο}
    {ops : List (Operation ω ο)} (h : run ops (start backend registry) = some c) :
    c.Faithful ∧
      ((∀ op ∈ ops, op.keepsRegistry = true) → ∀ slot source values,
        c.session.slots.get? slot = some source →
          (c.session.render source values).1 =
            ((start backend registry).session.render source values).1) := by
  have hf : c.Faithful := ((sound_start backend registry).run h).faithful
  refine ⟨hf, fun hops slot source values hs => ?_⟩
  obtain ⟨i, _, hi⟩ := hf.source slot source hs
  have hu : Uses backend registry (start backend registry) := ⟨nofun, rfl, rfl⟩
  exact (hu.run hops h).render hi values

/-- A run in which the address of a source is given away again. -/
def reusedAddress : List (Operation Unit String) :=
  [.create "a" 0 ["<b>", "</b>"], .compile "a", .drop "a", .purge, .create "b" 0 ["<i></i>"],
    .create "c" 7 ["<i></i>"], .share "d" "b", .compile "d", .drop "b", .get "d", .render "c" []]

private theorem compile_bold :
    Tree.compile (.empty : Registry Unit String) (Fragments.join ["<b>", "</b>"]) =
      .ok (.element "b" [] [.reference 0]) := by
  have hp : Markup.parse .strict (Tree.wrap (Fragments.join ["<b>", "</b>"])) =
      .ok [.element containerTag [] [.element "b" [] [.text "[[[0]]]"]]] := by decide +kernel
  have hd : decodeMarkers (Text.collapse "[[[0]]]".toList) = [.reference 0] := by decide +kernel
  rw [Tree.compile, Tree.ofMarkup, hp]
  simp only [Tree.ofForest, Tree.ofRoot, Tree.ofNode, Tree.ofNodes, Tree.ofText, hd]
  rfl

private theorem compile_italic :
    Tree.compile (.empty : Registry Unit String) (Fragments.join ["<i></i>"]) =
      .ok (.text "<i></i>") := by
  have hp : Markup.parse .strict (Tree.wrap (Fragments.join ["<i></i>"])) =
      .ok [.element containerTag [] [.element "i" [] []]] := by decide +kernel
  rw [Tree.compile, Tree.ofMarkup, hp]
  rfl

/-- The second source at the address does not get the tree of the first. Of the trees that were
compiled, the first is that of the source which had the address before. -/
theorem faithful_of_reusedAddress :
    ∃ c, run reusedAddress (start .text .empty) = some c ∧ c.Faithful ∧
      (∀ slot source values, c.session.slots.get? slot = some source →
        (c.session.render source values).1 =
          ((start .text .empty).session.render source values).1) ∧
      c.log.map (fun s => (s.identity, s.compiled.tree)) =
        [(0, .element "b" [] [.reference 0]), (1, .text "<i></i>"), (2, .text "<i></i>")] ∧
      c.session.slots.get? "d" = some ⟨0, ["<i></i>"]⟩ ∧
      (c.session.cached? ⟨0, ["<i></i>"]⟩).map Compiled.tree = some (.text "<i></i>") := by
  have hc : run reusedAddress (start .text .empty) = some
      { session :=
          { engine := ⟨.text, .empty, ⟨[(0, ⟨.text "<i></i>", 1⟩), (7, ⟨.text "<i></i>", 2⟩)], 3⟩⟩
            slots := [("c", ⟨7, ["<i></i>"]⟩), ("d", ⟨0, ["<i></i>"]⟩)]
            sites := [] }
        sources := [⟨0, ["<b>", "</b>"]⟩, ⟨0, ["<i></i>"]⟩, ⟨7, ["<i></i>"]⟩]
        owners := [("c", 2), ("d", 1)]
        log := [⟨0, .empty, ⟨.element "b" [] [.reference 0], 0⟩⟩,
          ⟨1, .empty, ⟨.text "<i></i>", 1⟩⟩, ⟨2, .empty, ⟨.text "<i></i>", 2⟩⟩] } := by
    simp [run, perform?, reusedAddress, start, Session.ofEngine, Engine.ofRegistry, Cache.empty,
      Session.isFree, Session.held, Session.hold, Session.drop, Session.share, Session.purge,
      Cache.purge, KeyedList.put, KeyedList.keys, KeyedList.erase, KeyedList.get?,
      Session.render_eq, afterCompile, succeed, Session.tryCompile, Engine.compile, Cache.compile,
      Cache.get?, Cache.store, compile_bold, compile_italic]
  have hops : ∀ op ∈ reusedAddress, op.keepsRegistry = true := by
    simp [reusedAddress, Operation.keepsRegistry]
  obtain ⟨hf, hrender⟩ := faithful_of_run hc
  exact ⟨_, hc, hf, hrender hops, rfl, rfl, rfl⟩

end Chronicle

end MarkupTemplate
