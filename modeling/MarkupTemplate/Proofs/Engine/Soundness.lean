import MarkupTemplate.Proofs.Engine.Chronicle

/-!
# The cache knows sources by their identity

An address stands for one identity at a time. As long as a source is held, or the cache has an
entry for it, no other source gets its address. So every entry of the cache has one tenant, the
identity that it was compiled for, and no other identity that is held can be taken for it. This is
an invariant of all runs (`MarkupTemplate.Chronicle.Sound`).

## Main definitions

* `MarkupTemplate.Chronicle.Sound` — the invariant.

## Main results

* `MarkupTemplate.Chronicle.Sound.cached?` — what the cache finds is the first success.
* `MarkupTemplate.Chronicle.Sound.perform?`, `MarkupTemplate.Chronicle.Sound.run` — operations and
  runs keep the invariant.
-/

namespace MarkupTemplate

variable {ω ο : Type}

namespace Chronicle

/-- The entries of the cache. -/
abbrev entries (c : Chronicle ω ο) : KeyedList Nat (Compiled ω ο) := c.session.engine.cache.entries

/-- The invariant that ties the cache to the identities of sources. -/
structure Sound (c : Chronicle ω ο) : Prop where
  sites : c.session.sites = []
  slots : c.session.slots.Related (fun source i => c.sources[i]? = some source) c.owners
  /-- Different identities that are held have different addresses. -/
  unique : ∀ i ∈ c.held, ∀ j ∈ c.held, c.address? i = c.address? j → i = j
  /-- An entry is the first success of its tenant, whose address no other held identity has. -/
  tenant : ∀ e ∈ c.entries, ∃ i s, c.address? i = some e.1 ∧ c.first? i = some s ∧
    s.compiled = e.2 ∧ ∀ j ∈ c.held, c.address? j = some e.1 → j = i
  /-- The first success of an identity is kept as long as the identity is held. -/
  kept : ∀ i ∈ c.held, ∀ s, c.first? i = some s → ∀ a, c.address? i = some a →
    c.entries.get? a = some s.compiled
  nodup : c.entries.keys.Nodup
  /-- Compiles belong to identities that have been given away. -/
  known : ∀ s ∈ c.log, s.identity < c.sources.length
  /-- Every success of an identity returned the tree of the first. -/
  repeated : ∀ s ∈ c.log, ∀ f, c.first? s.identity = some f → s.compiled = f.compiled
  /-- The first success returned the tree of the source for the components of its time. -/
  made : ∀ i s, c.first? i = some s → ∀ source, c.sources[i]? = some source →
    Tree.compile s.registry (Fragments.join source.fragments) = .ok s.compiled.tree
  serial_lt : ∀ s ∈ c.log, s.compiled.serial < c.session.engine.cache.nextSerial
  /-- The trees of different identities are told apart. -/
  serial_inj : ∀ s ∈ c.log, ∀ f ∈ c.log, s.compiled.serial = f.compiled.serial →
    s.identity = f.identity

theorem sound_start (backend : Backend ο) (registry : Registry ω ο) :
    (start backend registry).Sound where
  sites := rfl
  slots := .nil
  unique := by simp [held, start]
  tenant := by simp [entries, start, Session.ofEngine, Engine.ofRegistry, Cache.empty]
  kept := by simp [held, start]
  nodup := List.nodup_nil
  known := by simp [start]
  repeated := by simp [start]
  made := by simp [first?, start]
  serial_lt := by simp [start]
  serial_inj := by simp [start]

namespace Sound

variable {c : Chronicle ω ο}

/-! ### Reading the invariant -/

theorem source_of_held (h : c.Sound) {i : Nat} (hi : i ∈ c.held) :
    ∃ slot source, (slot, source) ∈ c.session.slots ∧ c.sources[i]? = some source := by
  obtain ⟨⟨slot, j⟩, hq, rfl⟩ := List.mem_map.mp hi
  obtain ⟨p, hp, _, hs⟩ := h.slots.exists_of_mem hq
  exact ⟨p.1, p.2, hp, hs⟩

/-- An address is held exactly if it is that of an identity that is held. -/
theorem held_iff (h : c.Sound) (a : Nat) :
    c.session.held a = true ↔ ∃ i ∈ c.held, c.address? i = some a := by
  rw [Session.held, h.sites, List.any_nil, Bool.or_false, List.any_eq_true]
  constructor
  · rintro ⟨p, hp, ha⟩
    obtain ⟨q, hq, _, hs⟩ := h.slots.exists_of_mem_left hp
    exact ⟨q.2, List.mem_map_of_mem hq, by simp [address?, hs, beq_iff_eq.mp ha]⟩
  · rintro ⟨i, hi, ha⟩
    obtain ⟨slot, source, hp, hs⟩ := h.source_of_held hi
    exact ⟨_, hp, by simpa [address?, hs] using ha⟩

theorem holds_iff (h : c.Sound) {slot : String} {source : Source}
    (hs : c.session.slots.get? slot = some source) : ∃ i, c.Holds slot i source := by
  obtain ⟨i, hi, _⟩ := h.slots.get? hs
  exact ⟨i, hi, hs⟩

theorem mem_held_of_holds {slot : String} {i : Nat} {source : Source}
    (hs : c.Holds slot i source) : i ∈ c.held :=
  List.mem_map_of_mem (KeyedList.mem_of_get? hs.1)

theorem source_of_holds (h : c.Sound) {slot : String} {i : Nat} {source : Source}
    (hs : c.Holds slot i source) : c.sources[i]? = some source := by
  obtain ⟨j, hj, hi⟩ := h.slots.get? hs.2
  rw [hs.1] at hj
  cases hj
  exact hi

/-- What the cache finds for a held source is the tree of its first success. -/
theorem cached? (h : c.Sound) {i : Nat} {source : Source} (hi : i ∈ c.held)
    (hs : c.sources[i]? = some source) :
    c.session.cached? source = (c.first? i).map Success.compiled := by
  have ha : c.address? i = some source.address := by simp [address?, hs]
  have hh : c.session.held source.address = true := (h.held_iff _).mpr ⟨i, hi, ha⟩
  rw [Session.cached?, Cache.get?, if_pos hh]
  cases hf : c.first? i with
  | some s => exact h.kept i hi s hf _ ha
  | none =>
    refine Option.eq_none_iff_forall_ne_some.mpr fun compiled hc => ?_
    obtain ⟨j, s, _, hj, _, hu⟩ := h.tenant _ (KeyedList.mem_of_get? hc)
    rw [hu i hi ha, hj] at hf
    cases hf

/-- The next identity has no success yet. -/
theorem first?_length (h : c.Sound) : c.first? c.sources.length = none := by
  cases hf : c.first? c.sources.length with
  | none => rfl
  | some s =>
    obtain ⟨hm, hs⟩ := first?_mem hf
    exact absurd (h.known s hm) (hs ▸ Nat.lt_irrefl _)

/-! ### Changes of what is held -/

/-- Creating a source gives its identity nothing yet. -/
theorem extend (h : c.Sound) (source : Source) :
    Sound { c with sources := c.sources ++ [source] } := by
  have hold {i : Nat} {old : Source} (hs : c.sources[i]? = some old) :
      (c.sources ++ [source])[i]? = some old :=
    (List.getElem?_append_left (List.getElem?_eq_some_iff.mp hs).1).trans hs
  have haddr {i a : Nat} (ha : c.address? i = some a) :
      address? { c with sources := c.sources ++ [source] } i = some a := by
    obtain ⟨old, hs, rfl⟩ := Option.map_eq_some_iff.mp ha
    rw [address?, hold hs, Option.map_some]
  have heq {i : Nat} (hi : i ∈ c.held) :
      address? { c with sources := c.sources ++ [source] } i = c.address? i := by
    obtain ⟨slot, old, _, hs⟩ := h.source_of_held hi
    rw [address?, address?, hold hs, hs]
  refine { h with
    slots := h.slots.mono fun _ _ => hold
    unique := ?_, tenant := ?_, kept := ?_, known := ?_, made := ?_ }
  · intro i hi j hj hij
    rw [heq hi, heq hj] at hij
    exact h.unique i hi j hj hij
  · intro e he
    obtain ⟨i, s, ha, hs, hc, hu⟩ := h.tenant e he
    exact ⟨i, s, haddr ha, hs, hc, fun j hj hja => hu j hj (heq hj ▸ hja)⟩
  · intro i hi s hs a ha
    exact h.kept i hi s hs a (heq hi ▸ ha)
  · intro s hs
    have := h.known s hs
    rw [List.length_append]
    omega
  · intro i s hs src hsrc
    obtain ⟨hm, rfl⟩ := first?_mem hs
    rw [List.getElem?_append_left (h.known s hm)] at hsrc
    exact h.made _ s hs src hsrc

theorem isFree_iff (s : Session ω ο) (a : Nat) :
    s.isFree a = true ↔ ¬ s.held a = true ∧ a ∉ s.engine.cache.entries.keys := by
  simp [Session.isFree]

/-- A slot may take a source that is held already, or one that is new. -/
theorem hold (h : c.Sound) {i : Nat} {source : Source} (hs : c.sources[i]? = some source)
    (hi : i ∈ c.held ∨ c.session.isFree source.address = true ∧ c.first? i = none)
    (slot : String) :
    Sound { c with
      session := c.session.hold slot source
      owners := c.owners.put slot i } := by
  have ha : c.address? i = some source.address := by simp [address?, hs]
  have hu : ∀ j ∈ c.held, c.address? j = c.address? i → j = i := by
    intro j hj hji
    rcases hi with hi | ⟨hf, _⟩
    · exact h.unique j hj i hi hji
    · have hh := (h.held_iff source.address).mpr ⟨j, hj, hji.trans ha⟩
      exact absurd hh ((isFree_iff _ _).mp hf).1
  have hmem : ∀ j ∈ (c.owners.put slot i).map Prod.snd, j = i ∨ j ∈ c.held := by
    intro j hj
    obtain ⟨q, hq, rfl⟩ := List.mem_map.mp hj
    rcases KeyedList.mem_put hq with rfl | hq
    · exact Or.inl rfl
    · exact Or.inr (List.mem_map_of_mem hq)
  refine { h with slots := h.slots.put slot hs, unique := ?_, tenant := ?_, kept := ?_ }
  · intro j hj k hk hjk
    rcases hmem j hj with rfl | hj'
    · rcases hmem k hk with rfl | hk'
      · rfl
      · exact (hu k hk' hjk.symm).symm
    · rcases hmem k hk with rfl | hk'
      · exact hu j hj' hjk
      · exact h.unique j hj' k hk' hjk
  · intro e he
    obtain ⟨k, s, hk, hf, hc, ht⟩ := h.tenant e he
    refine ⟨k, s, hk, hf, hc, fun j hj hje => ?_⟩
    rcases hmem j hj with rfl | hj
    · rcases hi with hi | ⟨hfree, _⟩
      · exact ht j hi hje
      · have hea : source.address = e.1 := Option.some.inj (ha.symm.trans hje)
        have hek : e.1 ∈ c.entries.keys := List.mem_map_of_mem he
        exact absurd (hea ▸ hek) ((isFree_iff _ _).mp hfree).2
    · exact ht j hj hje
  · intro j hj s hf a hja
    rcases hmem j hj with rfl | hj
    · rcases hi with hi | ⟨_, hn⟩
      · exact h.kept j hi s hf a hja
      · exact absurd (hn.symm.trans hf) nofun
    · exact h.kept j hj s hf a hja

theorem drop (h : c.Sound) (slot : String) :
    Sound { c with session := c.session.drop slot, owners := c.owners.erase slot } := by
  have hmem : ∀ j ∈ (c.owners.erase slot).map Prod.snd, j ∈ c.held := fun j hj =>
    (List.filter_sublist.map Prod.snd).subset hj
  refine { h with slots := h.slots.erase slot, unique := ?_, tenant := ?_, kept := ?_ }
  · exact fun i hi j hj => h.unique i (hmem i hi) j (hmem j hj)
  · intro e he
    obtain ⟨k, s, hk, hf, hc, ht⟩ := h.tenant e he
    exact ⟨k, s, hk, hf, hc, fun j hj => ht j (hmem j hj)⟩
  · exact fun i hi => h.kept i (hmem i hi)

/-! ### Changes of the cache -/

theorem purge (h : c.Sound) : Sound { c with session := c.session.purge } := by
  refine { h with nodup := KeyedList.nodup_keys_filter h.nodup _, tenant := ?_, kept := ?_ }
  · exact fun e he => h.tenant e (List.mem_of_mem_filter he)
  · intro i hi s hf a ha
    have hh : c.session.held a = true := (h.held_iff a).mpr ⟨i, hi, ha⟩
    exact (KeyedList.get?_filter hh _).trans (h.kept i hi s hf a ha)

/-- A compile that finds the tree of the first success only adds to the log. -/
theorem succeedAgain (h : c.Sound) {i : Nat} {f : Success ω ο} (hf : c.first? i = some f) :
    (c.succeed i f.compiled c.session).Sound := by
  have hfirst (j : Nat) : (c.succeed i f.compiled c.session).first? j = c.first? j := by
    by_cases hij : j = i
    · rw [hij, first?_succeed, hf, Option.some_or]
    · exact c.first?_succeed_of_ne hij _ _
  obtain ⟨hm, hi⟩ := first?_mem hf
  have hlog {s : Success ω ο} (hs : s ∈ (c.succeed i f.compiled c.session).log) :
      ∃ t ∈ c.log, t.identity = s.identity ∧ t.compiled = s.compiled := by
    rcases List.mem_append.mp hs with hs | hs
    · exact ⟨s, hs, rfl, rfl⟩
    · cases List.mem_singleton.mp hs
      exact ⟨f, hm, hi, rfl⟩
  refine { h with
    tenant := ?_, kept := ?_, known := ?_, repeated := ?_, made := ?_, serial_lt := ?_
    serial_inj := ?_ }
  · simp only [hfirst]
    exact h.tenant
  · simp only [hfirst]
    exact h.kept
  · intro s hs
    obtain ⟨t, ht, hid, _⟩ := hlog hs
    exact hid ▸ h.known t ht
  · intro s hs g hg
    obtain ⟨t, ht, hid, hc⟩ := hlog hs
    rw [hfirst, ← hid] at hg
    exact hc ▸ h.repeated t ht g hg
  · simp only [hfirst]
    exact h.made
  · intro s hs
    obtain ⟨t, ht, _, hc⟩ := hlog hs
    exact hc ▸ h.serial_lt t ht
  · intro s hs g hg hsg
    obtain ⟨t, ht, hid, hc⟩ := hlog hs
    obtain ⟨u, hu, hid', hc'⟩ := hlog hg
    rw [← hid, ← hid']
    exact h.serial_inj t ht u hu (by rw [hc, hc', hsg])

section First

variable {i : Nat} {source : Source} {tree : Tree ω ο}

/-- A stored tree has the identity it was compiled for as its tenant. -/
theorem tenant_store (h : c.Sound) (hi : i ∈ c.held) (hs : c.sources[i]? = some source)
    (hf : c.first? i = none) :
    let d := c.succeed i (c.session.nextCompiled tree) (c.session.store source tree)
    ∀ e ∈ d.entries, ∃ j s, d.address? j = some e.1 ∧ d.first? j = some s ∧ s.compiled = e.2 ∧
      ∀ k ∈ d.held, d.address? k = some e.1 → k = j := by
  intro d e he
  have ha : c.address? i = some source.address := by simp [address?, hs]
  rcases KeyedList.mem_put he with rfl | he
  · exact ⟨i, _, ha, c.first?_succeed_self hf _ _, rfl,
      fun j hj hja => h.unique j hj i hi (hja.trans ha.symm)⟩
  · obtain ⟨k, s, hk, hks, hc, hu⟩ := h.tenant e (List.mem_of_mem_filter he)
    have hki : k ≠ i := by
      rintro rfl
      exact absurd (hf.symm.trans hks) nofun
    exact ⟨k, s, hk, (c.first?_succeed_of_ne hki _ _).trans hks, hc, hu⟩

/-- Storing a tree keeps what is stored under other addresses that are held. -/
theorem kept_store (h : c.Sound) (hi : i ∈ c.held) (hs : c.sources[i]? = some source)
    (hf : c.first? i = none) :
    let d := c.succeed i (c.session.nextCompiled tree) (c.session.store source tree)
    ∀ j ∈ d.held, ∀ s, d.first? j = some s → ∀ a, d.address? j = some a →
      d.entries.get? a = some s.compiled := by
  intro d j hj s hjs a hja
  have ha : c.address? i = some source.address := by simp [address?, hs]
  by_cases hij : j = i
  · cases hij
    cases (c.first?_succeed_self hf _ _).symm.trans hjs
    cases ha.symm.trans hja
    exact KeyedList.get?_put_self _ _ _
  · have hne : source.address ≠ a := fun e => hij (h.unique j hj i hi (hja.trans (e ▸ ha.symm)))
    have hh : c.session.held a = true := (h.held_iff a).mpr ⟨j, hj, hja⟩
    have hcs : c.first? j = some s := (c.first?_succeed_of_ne hij _ _).symm.trans hjs
    exact (KeyedList.get?_put_of_ne hne _ _).trans
      ((KeyedList.get?_filter hh _).trans (h.kept j hj s hcs a hja))

/-- A new tree has a number that no tree in the log has. -/
theorem serial_inj_store (h : c.Sound) (i : Nat) (source : Source) (tree : Tree ω ο) :
    let d := c.succeed i (c.session.nextCompiled tree) (c.session.store source tree)
    ∀ s ∈ d.log, ∀ g ∈ d.log, s.compiled.serial = g.compiled.serial →
      s.identity = g.identity := by
  intro d s hm g hg hsg
  rcases List.mem_append.mp hm with hm | hm
  · rcases List.mem_append.mp hg with hg | hg
    · exact h.serial_inj s hm g hg hsg
    · cases List.mem_singleton.mp hg
      exact absurd hsg (Nat.ne_of_lt (h.serial_lt s hm))
  · cases List.mem_singleton.mp hm
    rcases List.mem_append.mp hg with hg | hg
    · exact absurd hsg.symm (Nat.ne_of_lt (h.serial_lt g hg))
    · cases List.mem_singleton.mp hg
      rfl

/-- A first success stores its tree and sweeps what nobody holds. -/
theorem succeedFirst (h : c.Sound) (hi : i ∈ c.held) (hs : c.sources[i]? = some source)
    (hf : c.first? i = none)
    (ht : Tree.compile c.session.engine.registry (Fragments.join source.fragments) = .ok tree) :
    (c.succeed i (c.session.nextCompiled tree) (c.session.store source tree)).Sound := by
  refine { h with
    tenant := h.tenant_store hi hs hf
    kept := h.kept_store hi hs hf
    serial_inj := h.serial_inj_store i source tree
    nodup := KeyedList.nodup_keys_put (KeyedList.nodup_keys_filter h.nodup _) _ _
    known := ?_, repeated := ?_, made := ?_, serial_lt := ?_ }
  · intro s hm
    rcases List.mem_append.mp hm with hm | hm
    · exact h.known s hm
    · cases List.mem_singleton.mp hm
      exact (List.getElem?_eq_some_iff.mp hs).1
  · intro s hm g hg
    rcases List.mem_append.mp hm with hlog | hm
    · have hne : s.identity ≠ i := by
        rintro rfl
        obtain ⟨f, hfirst⟩ := exists_first?_of_mem hlog
        exact absurd (hf.symm.trans hfirst) nofun
      exact h.repeated s hlog g ((c.first?_succeed_of_ne hne _ _).symm.trans hg)
    · cases List.mem_singleton.mp hm
      cases (c.first?_succeed_self hf _ _).symm.trans hg
      rfl
  · intro j s hjs src hsrc
    by_cases hij : j = i
    · cases hij
      cases (c.first?_succeed_self hf _ _).symm.trans hjs
      cases hs.symm.trans hsrc
      exact ht
    · exact h.made j s ((c.first?_succeed_of_ne hij _ _).symm.trans hjs) src hsrc
  · intro s hm
    rcases List.mem_append.mp hm with hm | hm
    · exact Nat.lt_succ_of_lt (h.serial_lt s hm)
    · cases List.mem_singleton.mp hm
      exact Nat.lt_succ_self _

end First

/-- A compile keeps the invariant, whether it finds a tree, stores one or fails. -/
theorem afterCompile (h : c.Sound) {i : Nat} {source : Source} (hi : i ∈ c.held)
    (hs : c.sources[i]? = some source) : (c.afterCompile i source).Sound := by
  have hc := h.cached? hi hs
  cases hf : c.first? i with
  | some f =>
    rw [hf] at hc
    rw [Chronicle.afterCompile, Session.tryCompile_of_cached? hc]
    exact h.succeedAgain hf
  | none =>
    rw [hf] at hc
    rw [Chronicle.afterCompile, Session.tryCompile_of_not_cached hc]
    cases ht : Tree.compile c.session.engine.registry (Fragments.join source.fragments) with
    | error error => exact h
    | ok tree => exact h.succeedFirst hi hs hf ht

/-! ### Runs -/

theorem perform? (h : c.Sound) {op : Operation ω ο} {c' : Chronicle ω ο}
    (hc : c.perform? op = some c') : c'.Sound := by
  cases op with
  | create slot address fragments =>
    rw [Chronicle.perform?] at hc
    split at hc
    · rename_i hfree
      cases hc
      exact (h.extend ⟨address, fragments⟩).hold List.getElem?_concat_length
        (Or.inr ⟨hfree, h.first?_length⟩) slot
    · cases hc
  | share slot other =>
    simp only [Chronicle.perform?, Session.share, Option.bind_eq_bind, Option.bind_eq_some_iff,
      Option.map_eq_some_iff, Option.pure_def] at hc
    obtain ⟨_, ⟨source, hs, rfl⟩, i, hi, hc⟩ := hc
    cases hc
    exact h.hold (h.source_of_holds ⟨hi, hs⟩) (Or.inl (mem_held_of_holds ⟨hi, hs⟩)) slot
  | drop slot =>
    cases hc
    exact h.drop slot
  | register name render =>
    cases hc
    exact { h with }
  | get slot =>
    obtain ⟨_, _, rfl⟩ := Option.map_eq_some_iff.mp hc
    exact h
  | compile slot =>
    simp only [Chronicle.perform?, Option.bind_eq_bind, Option.bind_eq_some_iff,
      Option.pure_def] at hc
    obtain ⟨source, hs, i, hi, hc⟩ := hc
    cases hc
    exact h.afterCompile (mem_held_of_holds ⟨hi, hs⟩) (h.source_of_holds ⟨hi, hs⟩)
  | purge =>
    cases hc
    exact h.purge
  | render slot values =>
    simp only [Chronicle.perform?, Option.bind_eq_bind, Option.bind_eq_some_iff,
      Option.pure_def] at hc
    obtain ⟨source, hs, i, hi, hc⟩ := hc
    cases hc
    rw [session_render]
    exact h.afterCompile (mem_held_of_holds ⟨hi, hs⟩) (h.source_of_holds ⟨hi, hs⟩)

theorem run {ops : List (Operation ω ο)} {c' : Chronicle ω ο} (h : c.Sound)
    (hc : run ops c = some c') : c'.Sound := by
  induction ops generalizing c with
  | nil =>
    cases hc
    exact h
  | cons op ops ih =>
    obtain ⟨d, hd, hc⟩ := Option.bind_eq_some_iff.mp hc
    exact ih (h.perform? hd) hc

end Sound

end Chronicle

end MarkupTemplate
