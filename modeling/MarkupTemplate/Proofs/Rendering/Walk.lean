import MarkupTemplate.Proofs.Rendering.CallSites
import MarkupTemplate.Proofs.Rendering.Outline

/-!
# The walk through a tree

Before anything is polled, rendering walks through a tree. It takes the steps of the tree in
order, ends at the first step that fails, and passes over a call whose children wait for an answer.

`Walks` states this of a list of steps, the log of their walk and what the walk comes to. One walk
after the other is a walk of the steps of both, provided that the nodes of the two are apart. So
the walk through siblings is put together from the walks through each of them.

## Main definitions

* `MarkupTemplate.Clear`, `MarkupTemplate.Blocked` — no step fails; a call waits for another.
* `MarkupTemplate.Walks` — which calls of a walk are made.

## Main results

* `MarkupTemplate.Walks.append`, `MarkupTemplate.Walks.stop`, `MarkupTemplate.Walks.call` — how
  walks are put together.
* `MarkupTemplate.Tree.walks_render` — rendering is a walk of the steps of the tree.
-/

namespace MarkupTemplate

variable {ω ο α β : Type}

/-! ### Walks -/

section Walks

variable {count : Nat} {steps more : List WalkStep} {log next : List (NodeEvent ω)}

/-- No step fails: every slot that is looked up has a value, and no call is refused. -/
def Clear (count : Nat) (steps : List WalkStep) (log : List (NodeEvent ω)) : Prop :=
  (∀ index, .use index ∈ steps → index < count) ∧ ∀ q ∈ calls steps, .called q .refused ∉ log

/-- A call below the node at `p` waits for its answer. -/
def Blocked (p : List Nat) (log : List (NodeEvent ω)) : Prop :=
  ∃ q, Below p q ∧ .called q .suspended ∈ log

/-- The log is that of a walk of the steps. The status tells whether a call waits for its answer,
and it is missing if the walk fails. -/
structure Walks (count : Nat) (steps : List WalkStep) (log : List (NodeEvent ω))
    (status : Option Bool) : Prop where
  /-- Calls are made in the order of the steps. -/
  sublist : (calledPaths log).Sublist (calls steps)
  /-- A call is made unless an earlier step fails or a call below waits for its answer. -/
  called_iff : ∀ before p after, steps = before ++ .call p :: after →
    (p ∈ calledPaths log ↔ Clear count before log ∧ ¬ Blocked p log)
  isSome_iff : status.isSome ↔ Clear count steps log
  pending_iff : ∀ waits, status = some waits → (waits = true ↔ ∃ q, .called q .suspended ∈ log)

theorem clear_append_iff :
    Clear count (steps ++ more) log ↔ Clear count steps log ∧ Clear count more log := by
  simp only [Clear, List.mem_append, calls_append]
  constructor
  · rintro ⟨hu, hc⟩
    exact ⟨⟨fun i hi => hu i (.inl hi), fun q hq => hc q (.inl hq)⟩,
      fun i hi => hu i (.inr hi), fun q hq => hc q (.inr hq)⟩
  · rintro ⟨⟨hu, hc⟩, hu', hc'⟩
    exact ⟨fun i hi => hi.elim (hu i) (hu' i), fun q hq => hq.elim (hc q) (hc' q)⟩

/-- Whether steps fail does not depend on calls of other nodes. -/
theorem clear_congr
    (h : ∀ q ∈ calls steps, ∀ reply, .called q reply ∈ log ↔ .called q reply ∈ next) :
    Clear count steps log ↔ Clear count steps next :=
  and_congr_right fun _ => forall₂_congr fun q hq => not_congr (h q hq .refused)

/-- Whether a call waits for one below its node depends on the calls below only. -/
theorem blocked_congr {p : List Nat}
    (h : ∀ q, Below p q → (.called q .suspended ∈ log ↔ .called q .suspended ∈ next)) :
    Blocked p log ↔ Blocked p next :=
  exists_congr fun q => and_congr_right (h q)

/-- What the call of a node adds to the status of a walk. -/
def Reply.status : Reply → Option Bool
  | answered => some false
  | suspended => some true
  | refused => none

section Call

variable {path : List Nat} {reply : Reply} {rest : List (NodeEvent ω)}
  (hrest : calledPaths rest = [])

include hrest

/-- A log that goes on with one call has the calls it had and this one. -/
theorem called_mem_append_called {q : List Nat} {r : Reply} :
    .called q r ∈ log ++ .called path reply :: rest ↔
      .called q r ∈ log ∨ q = path ∧ r = reply := by
  have hnone : .called q r ∉ rest := fun hq =>
    List.not_mem_nil (hrest ▸ mem_calledPaths.mpr ⟨r, hq⟩)
  simp [hnone]

theorem calledPaths_append_called :
    calledPaths (log ++ .called path reply :: rest) = calledPaths log ++ [path] := by
  rw [calledPaths_append]
  exact congrArg (calledPaths log ++ path :: ·) hrest

/-- Steps that call nothing at a node do not fail by a call there. -/
theorem clear_append_called (hpath : path ∉ calls steps) :
    Clear count steps (log ++ .called path reply :: rest) ↔ Clear count steps log :=
  clear_congr fun _ hq _ => (called_mem_append_called hrest).trans
    (or_iff_left fun hr => hpath (hr.1 ▸ hq))

/-- The step of a call fails if the call is refused. -/
theorem clear_call_iff (hpath : ∀ r, .called path r ∉ log) :
    Clear count [.call path] (log ++ .called path reply :: rest) ↔ reply ≠ .refused := by
  constructor
  · rintro ⟨-, hc⟩ rfl
    exact hc path (List.mem_singleton_self _)
      ((called_mem_append_called hrest).mpr (.inr ⟨rfl, rfl⟩))
  · refine fun hr => ⟨fun index hi => (nomatch List.mem_singleton.mp hi), fun q hq hm => ?_⟩
    obtain rfl : q = path := List.mem_singleton.mp hq
    rcases (called_mem_append_called hrest).mp hm with hl | ⟨-, he⟩
    · exact hpath .refused hl
    · exact hr he.symm

/-- If no call was waiting for its answer, the status of the next one tells whether it does. -/
theorem pending_append_called (hwait : ∀ q, .called q .suspended ∉ log) {waits : Bool}
    (h : reply.status = some waits) :
    waits = true ↔ ∃ q, .called q .suspended ∈ log ++ .called path reply :: rest := by
  cases reply with
  | answered =>
    cases h
    refine iff_of_false nofun ?_
    rintro ⟨q, hq⟩
    exact ((called_mem_append_called hrest).mp hq).elim (hwait q) fun hr => nomatch hr.2
  | suspended =>
    cases h
    exact iff_of_true rfl ⟨path, (called_mem_append_called hrest).mpr (.inr ⟨rfl, rfl⟩)⟩
  | refused => cases h

end Call

namespace Walks

variable {status : Option Bool}

theorem mem_calls_of_called (h : Walks count steps log status) {q : List Nat} {reply : Reply}
    (hq : .called q reply ∈ log) : q ∈ calls steps :=
  h.sublist.subset (mem_calledPaths.mpr ⟨reply, hq⟩)

/-- After a step that fails no more steps are taken. -/
theorem stop (h : Walks count steps log none) (hd : ∀ p ∈ calls steps, p ∉ calls more) :
    Walks count (steps ++ more) log none where
  sublist := h.sublist.trans (calls_append steps more ▸ List.sublist_append_left ..)
  called_iff before p after hs := by
    rcases exists_of_append_eq hs with ⟨after', hs⟩ | ⟨before', rfl, hm⟩
    · exact h.called_iff before p after' hs
    · have hp : p ∈ calls more := mem_calls.mpr (by simp [hm])
      refine iff_of_false (fun hc => hd p (h.sublist.subset hc) hp) fun hc => ?_
      exact absurd (h.isSome_iff.mpr (clear_append_iff.mp hc.1).1) (by simp)
  isSome_iff := iff_of_false (by simp) fun hc =>
    absurd (h.isSome_iff.mpr (clear_append_iff.mp hc).1) (by simp)
  pending_iff := nofun

/-- A walk that comes to an end may be followed by another one. -/
theorem append {waits : Bool} (h : Walks count steps log (some waits))
    (h' : Walks count more next status) (ha : Apart (calls steps) (calls more)) :
    Walks count (steps ++ more) (log ++ next) (status.map (waits || ·)) := by
  have hl : ∀ q ∈ calls steps, ∀ reply,
      .called q reply ∈ log ++ next ↔ .called q reply ∈ log := fun q hq reply => by
    rw [List.mem_append]
    exact or_iff_left fun hn => ha.not_mem hq (h'.mem_calls_of_called hn)
  have hr : ∀ q ∈ calls more, ∀ reply,
      .called q reply ∈ log ++ next ↔ .called q reply ∈ next := fun q hq reply => by
    rw [List.mem_append]
    exact or_iff_right fun hn => ha.not_mem (h.mem_calls_of_called hn) hq
  have hclear : Clear count steps (log ++ next) :=
    (clear_congr hl).mpr (h.isSome_iff.mp rfl)
  refine ⟨?_, fun before p after hs => ?_, ?_, fun w hw => ?_⟩
  · rw [calledPaths_append, calls_append]
    exact h.sublist.append h'.sublist
  · rw [calledPaths_append, List.mem_append]
    rcases exists_of_append_eq hs with ⟨after', hs⟩ | ⟨before', rfl, hm⟩
    · have hp : p ∈ calls steps := mem_calls.mpr (by simp [hs])
      have hb : ∀ q ∈ calls before, q ∈ calls steps := fun q hq =>
        hs ▸ calls_append before _ ▸ List.mem_append_left _ hq
      rw [or_iff_left fun hn => ha.not_mem hp (h'.sublist.subset hn),
        h.called_iff before p after' hs, clear_congr fun q hq => hl q (hb q hq)]
      refine and_congr_right fun _ => not_congr (blocked_congr fun q hq => ?_)
      rw [List.mem_append]
      exact (or_iff_left fun hn => (ha p hp q (h'.mem_calls_of_called hn)).1 hq.1).symm
    · have hp : p ∈ calls more := mem_calls.mpr (by simp [hm])
      have hb : ∀ q ∈ calls before', q ∈ calls more := fun q hq =>
        hm ▸ calls_append before' _ ▸ List.mem_append_left _ hq
      rw [or_iff_right fun hn => ha.not_mem (h.sublist.subset hn) hp,
        h'.called_iff before' p after hm, clear_append_iff, and_iff_right hclear,
        clear_congr fun q hq => hr q (hb q hq)]
      refine and_congr_right fun _ => not_congr (blocked_congr fun q hq => ?_)
      rw [List.mem_append]
      exact (or_iff_right fun hn => (ha q (h.mem_calls_of_called hn) p hp).2 hq.1).symm
  · rw [Option.isSome_map, h'.isSome_iff, clear_append_iff, and_iff_right hclear,
      clear_congr hr]
  · obtain ⟨w', hw', rfl⟩ := Option.map_eq_some_iff.mp hw
    simp only [Bool.or_eq_true, h.pending_iff waits rfl, h'.pending_iff w' hw', List.mem_append,
      exists_or]

/-- Nothing is called on lookups. -/
theorem lookups_ok {refs : List Nat} (h : ∀ index ∈ refs, index < count) :
    Walks (ω := ω) count (lookups refs) [] (some false) where
  sublist := List.nil_sublist _
  called_iff before p after hs := by
    have hp : p ∈ calls (lookups refs) := mem_calls.mpr (by simp [hs])
    simp at hp
  isSome_iff := iff_of_true rfl ⟨fun index hi => by
    obtain ⟨i, hr, hu⟩ := List.mem_map.mp hi
    cases hu
    exact h index hr, fun _ _ => List.not_mem_nil⟩
  pending_iff waits hw := by
    cases hw
    exact iff_of_false nofun (by simp)

theorem lookups_fail {refs : List Nat} (h : ¬ ∀ index ∈ refs, index < count) :
    Walks (ω := ω) count (lookups refs) [] none where
  sublist := List.nil_sublist _
  called_iff before p after hs := by
    have hp : p ∈ calls (lookups refs) := mem_calls.mpr (by simp [hs])
    simp at hp
  isSome_iff := iff_of_false nofun fun hc =>
    h fun index hi => hc.1 index (List.mem_map_of_mem hi)
  pending_iff := nofun

/-- A call whose children wait for an answer is passed over. -/
theorem pass {path : List Nat} (h : Walks count steps log (some true))
    (hbelow : ∀ q ∈ calls steps, Below path q) :
    Walks count (steps ++ [.call path]) log (some true) where
  sublist := h.sublist.trans (calls_append steps _ ▸ List.sublist_append_left ..)
  called_iff before p after hs := by
    rcases exists_of_append_eq hs with ⟨after', hs⟩ | ⟨before', rfl, hm⟩
    · exact h.called_iff before p after' hs
    · obtain rfl : path = p := by
        have hp : p ∈ calls [.call path] := mem_calls.mpr (by simp [hm])
        exact (List.mem_singleton.mp hp).symm
      obtain ⟨q, hq⟩ := (h.pending_iff true rfl).mp rfl
      refine iff_of_false (fun hc => (hbelow path (h.sublist.subset hc)).2 rfl) fun hc => hc.2 ?_
      exact ⟨q, hbelow q (h.mem_calls_of_called hq), hq⟩
  isSome_iff := by
    rw [clear_append_iff]
    refine iff_of_true rfl ⟨h.isSome_iff.mp rfl,
      fun index hi => (nomatch List.mem_singleton.mp hi), fun q hq hr => ?_⟩
    exact (hbelow q (h.mem_calls_of_called hr)).2 (List.mem_singleton.mp hq).symm
  pending_iff := h.pending_iff

/-- A call whose children have been answered is made. -/
theorem call {path : List Nat} {reply : Reply} {rest : List (NodeEvent ω)}
    (h : Walks count steps log (some false)) (hbelow : ∀ q ∈ calls steps, Below path q)
    (hrest : calledPaths rest = []) :
    Walks count (steps ++ [.call path]) (log ++ .called path reply :: rest) reply.status := by
  have hpath : path ∉ calls steps := fun hp => (hbelow path hp).2 rfl
  have hclear : Clear count steps (log ++ .called path reply :: rest) :=
    (clear_append_called hrest hpath).mpr (h.isSome_iff.mp rfl)
  have hwait : ∀ q, .called q .suspended ∉ log := fun q hq =>
    Bool.false_ne_true ((h.pending_iff false rfl).mpr ⟨q, hq⟩)
  refine ⟨?_, fun before p after hs => ?_, ?_, fun w => pending_append_called hrest hwait⟩
  · rw [calledPaths_append_called hrest, calls_append]
    exact h.sublist.append (List.Sublist.refl _)
  · rw [calledPaths_append_called hrest, List.mem_append, List.mem_singleton]
    rcases exists_of_append_eq hs with ⟨after', hs'⟩ | ⟨before', rfl, hm⟩
    · have hp : p ∈ calls steps := mem_calls.mpr (by simp [hs'])
      have hb : path ∉ calls before := fun hq =>
        hpath (hs' ▸ calls_append before _ ▸ List.mem_append_left _ hq)
      rw [or_iff_left (ne_of_mem_of_not_mem hp hpath), h.called_iff before p after' hs',
        clear_append_called hrest hb]
      refine and_congr_right fun _ => not_congr (blocked_congr fun q hq => ?_)
      rw [called_mem_append_called hrest]
      refine (or_iff_left fun hr => ?_).symm
      -- Then `p` lies below `path`, which lies below `p`.
      have hle : p <+: path := hr.1 ▸ hq.1
      exact (hbelow p hp).2 ((hbelow p hp).1.eq_of_length_le hle.length_le)
    · have hb : before' = [] ∧ path = p := by
        rcases before' with _ | ⟨b, before'⟩
        · cases hm
          exact ⟨rfl, rfl⟩
        · simp at hm
      obtain ⟨rfl, rfl⟩ := hb
      rw [List.append_nil]
      refine iff_of_true (.inr rfl) ⟨hclear, ?_⟩
      rintro ⟨q, hq, hs⟩
      exact ((called_mem_append_called hrest).mp hs).elim (hwait q) fun hr => hq.2 hr.1.symm
  · rw [clear_append_iff, and_iff_right hclear,
      clear_call_iff hrest fun r hr => hpath (h.mem_calls_of_called hr)]
    cases reply <;> simp [Reply.status]

/-- Nothing is called after a call that is refused. -/
theorem stops (h : Walks count steps log status) {pre post : List (NodeEvent ω)} {p : List Nat}
    (hl : log = pre ++ .called p .refused :: post) : calledPaths post = [] := by
  refine List.eq_nil_iff_forall_not_mem.mpr fun q hq => ?_
  have hcalled : calledPaths log = calledPaths pre ++ p :: calledPaths post := by
    rw [hl, calledPaths_append]
    rfl
  have hpq : [p, q].Sublist (calls steps) := by
    refine .trans ?_ h.sublist
    rw [hcalled]
    exact .trans ((List.singleton_sublist.mpr hq).cons_cons p) (List.sublist_append_right _ _)
  -- The call of `p` is one of the steps before that of `q`.
  obtain ⟨ps, qs, hs, hp, hqs⟩ := List.cons_sublist_iff.mp hpq
  obtain ⟨front, back, rfl, rfl, rfl⟩ := List.filterMap_eq_append_iff.mp hs
  have hback : .call q ∈ back := mem_calls.mp (List.singleton_sublist.mp hqs)
  obtain ⟨before, after, rfl⟩ := List.append_of_mem hback
  have hc := (h.called_iff (front ++ before) q after (List.append_assoc ..).symm).mp
    (hcalled ▸ List.mem_append_right _ (List.mem_cons_of_mem p hq))
  refine hc.1.2 p ?_ (hl ▸ List.mem_append_right _ List.mem_cons_self)
  rw [calls_append]
  exact List.mem_append_left _ hp

end Walks

end Walks

/-! ### Rendering is a walk -/

namespace Attempt

/-- What a call returns. -/
def reply (x : Attempt ω (Rendered ω α)) : Reply :=
  match x.result with
  | .error _ => .refused
  | .ok (.ready _) => .answered
  | .ok (.pending _) => .suspended

/-- Whether the result is still to come, if there is no error. -/
def status (x : Attempt ω (Rendered ω α)) : Option Bool := x.result.toOption.map Rendered.isPending

/-- Whether one of the results is still to come, if there is no error. -/
def statusAll (x : Attempt ω (List (Rendered ω α))) : Option Bool :=
  x.result.toOption.map fun rs => rs.any Rendered.isPending

theorem calledPaths_own (events : List ω) : calledPaths (events.map NodeEvent.own) = [] := by
  simp [calledPaths]

/-- The records of a call start with what it returns, and tell of no other call. -/
theorem exists_events_observe (path : List Nat) : (x : Attempt ω (Rendered ω α)) →
    ∃ rest, (x.observe path).events = .called path x.reply :: rest ∧ calledPaths rest = []
  | ⟨events, .error _⟩ => ⟨_, rfl, calledPaths_own events⟩
  | ⟨events, .ok (.ready _)⟩ => ⟨_, rfl, by
      rw [calledPaths_append, calledPaths_own]
      rfl⟩
  | ⟨events, .ok (.pending _)⟩ => ⟨_, rfl, calledPaths_own events⟩

theorem status_observe (path : List Nat) : (x : Attempt ω (Rendered ω α)) →
    (x.observe path).status = x.reply.status
  | ⟨_, .error _⟩ => rfl
  | ⟨_, .ok (.ready _)⟩ => rfl
  | ⟨_, .ok (.pending _)⟩ => rfl

end Attempt

namespace Tree

variable (backend : Backend ο) {values : List Value} {steps more : List WalkStep}

/-- Slots that the attributes of a node refer to have values if its attributes can be resolved. -/
theorem resolveAttributes_eq_ok_iff {attrs : Attributes} :
    (∃ texts, resolveAttributes values attrs = .ok texts) ↔
      ∀ index ∈ attrs.references, index < values.length := by
  rw [resolveAttributes_eq, ← checkReferences_eq_ok_iff]
  cases checkReferences values.length attrs.references with
  | error error => exact iff_of_false (by nofun) (by nofun)
  | ok u => exact iff_of_true ⟨_, rfl⟩ rfl

/-- What the attributes of a component refer to is looked up twice, the second time with success. -/
theorem exists_wholeValues {attrs : Attributes}
    (h : ∀ index ∈ attrs.references, index < values.length) :
    ∃ wholes, wholeValues values attrs = .ok wholes := by
  induction attrs with
  | nil => exact ⟨[], rfl⟩
  | cons attr attrs ih =>
    obtain ⟨name, value⟩ := attr
    obtain ⟨wholes, hw⟩ := ih fun index hi =>
      h index (List.mem_append_right (AttrValue.references value) hi)
    rcases value with (content | index) | parts
    · exact ⟨wholes, hw⟩
    · have hi : index < values.length := h index List.mem_cons_self
      have hv : substitution values index = .ok values[index] := by
        rw [substitution, List.getElem?_eq_getElem hi]
      refine ⟨(name, values[index]) :: wholes, ?_⟩
      rw [wholeValues, hv, hw]
      rfl
    · exact ⟨wholes, hw⟩

/-- A walk starts with the lookups for the attributes of a node. -/
theorem walks_resolve {attrs : Attributes}
    {k : List (String × String) → Attempt (NodeEvent ω) (Rendered (NodeEvent ω) α)}
    (hk : ∀ texts, (∀ index ∈ attrs.references, index < values.length) →
      Walks values.length steps (k texts).events (k texts).status) :
    Walks values.length (lookups attrs.references ++ steps)
      (Attempt.ofExcept (resolveAttributes values attrs) >>= k).events
      (Attempt.ofExcept (resolveAttributes values attrs) >>= k).status := by
  have hn : calls (lookups attrs.references) = [] := calls_lookups _
  cases hr : resolveAttributes values attrs with
  | error error =>
    have hf : ¬ ∀ index ∈ attrs.references, index < values.length := fun h => by
      obtain ⟨texts, ht⟩ := resolveAttributes_eq_ok_iff.mpr h
      rw [hr] at ht
      cases ht
    exact (Walks.lookups_fail hf).stop (by simp)
  | ok texts =>
    have hu := resolveAttributes_eq_ok_iff.mp ⟨texts, hr⟩
    have hw := (Walks.lookups_ok hu).append (hk texts hu) fun p hp => absurd (hn ▸ hp) (by simp)
    have hk : Walks values.length (lookups attrs.references ++ steps) (k texts).events
        (k texts).status := by simpa using hw
    exact hk

/-- The walk through siblings is that through the first and then through the others. -/
theorem walks_cons {x : Attempt (NodeEvent ω) (Rendered (NodeEvent ω) ο)}
    {y : Attempt (NodeEvent ω) (List (Rendered (NodeEvent ω) ο))}
    (hx : Walks values.length steps x.events x.status)
    (hy : Walks values.length more y.events y.statusAll) (ha : Apart (calls steps) (calls more)) :
    Walks values.length (steps ++ more) (do let r ← x; let rs ← y; return r :: rs).events
      (do let r ← x; let rs ← y; return r :: rs).statusAll := by
  rcases x with ⟨events, error | r⟩
  · exact hx.stop fun p hp => ha.not_mem hp
  · rcases y with ⟨es, error | rs⟩
    · exact hx.append hy ha
    · have he : (do
          let r ← (⟨events, .ok r⟩ : Attempt (NodeEvent ω) (Rendered (NodeEvent ω) ο))
          let rs ← ⟨es, .ok rs⟩
          return r :: rs) = ⟨events ++ es, .ok (r :: rs)⟩ :=
        congrArg (Attempt.mk · (.ok (r :: rs))) (congrArg (events ++ ·) (List.append_nil es))
      rw [he]
      exact hx.append hy ha

theorem isPending_joinRendered (rs : List (Rendered ω ο)) :
    (joinRendered backend rs).isPending = rs.any Rendered.isPending :=
  (Rendered.isPending_map _ _).trans (Rendered.isPending_joinAll rs)

/-- An element adds no step to those of its children. -/
theorem walks_bind_element {y : Attempt (NodeEvent ω) (List (Rendered (NodeEvent ω) ο))}
    (f : ο → ο) (hy : Walks values.length steps y.events y.statusAll) :
    Walks values.length steps (y >>= fun rs => pure ((joinRendered backend rs).map f)).events
      (y >>= fun rs => pure ((joinRendered backend rs).map f)).status := by
  rcases y with ⟨events, error | rs⟩
  · exact hy
  · have he : ((⟨events, .ok rs⟩ : Attempt (NodeEvent ω) (List (Rendered (NodeEvent ω) ο))) >>=
        fun rs => pure ((joinRendered backend rs).map f)) =
          ⟨events, .ok ((joinRendered backend rs).map f)⟩ :=
      congrArg (Attempt.mk · _) (List.append_nil events)
    have hs : ((joinRendered backend rs).map f).isPending = rs.any Rendered.isPending :=
      (Rendered.isPending_map f _).trans (isPending_joinRendered backend rs)
    have hy' : Walks values.length steps events (some (rs.any Rendered.isPending)) := hy
    rw [he]
    rw [← hs] at hy'
    exact hy'

/-- A component adds its call to the steps of its children. -/
theorem walks_bind_call {y : Attempt (NodeEvent ω) (List (Rendered (NodeEvent ω) ο))}
    {path : List Nat} (k : ο → Attempt ω (Rendered ω ο))
    (hy : Walks values.length steps y.events y.statusAll)
    (hbelow : ∀ q ∈ calls steps, Below path q) :
    Walks values.length (steps ++ [.call path])
      (y >>= fun rs => (joinRendered backend rs).andThen fun output =>
        (k output).observe path).events
      (y >>= fun rs => (joinRendered backend rs).andThen fun output =>
        (k output).observe path).status := by
  rcases y with ⟨events, error | rs⟩
  · refine hy.stop fun p hp hq => (hbelow p hp).2 ?_
    exact (List.mem_singleton.mp hq).symm
  · have hj := isPending_joinRendered backend rs
    have hw : Walks values.length steps events (some (joinRendered backend rs).isPending) :=
      hj ▸ hy
    rw [Attempt.bind_mk_ok]
    cases hr : joinRendered backend rs with
    | ready output =>
      obtain ⟨rest, he, hrest⟩ := Attempt.exists_events_observe path (k output)
      rw [hr] at hw
      have hc : Walks values.length (steps ++ [.call path])
          (events ++ .called path (k output).reply :: rest) (k output).reply.status :=
        hw.call hbelow hrest
      rw [← he, ← Attempt.status_observe path] at hc
      exact hc
    | pending job =>
      rw [hr] at hw
      have he : Attempt.prepend events ((Rendered.pending job).andThen fun output =>
          (k output).observe path) = ⟨events, .ok (.pending (job.andThen fun output =>
            (k output).observe path))⟩ :=
        congrArg (Attempt.mk · _) (List.append_nil events)
      rw [he]
      exact hw.pass hbelow

variable (values)

/-- Without steps nothing is called. -/
theorem walks_nil : Walks (ω := ω) values.length [] [] (some false) :=
  Walks.lookups_ok (fun _ h => absurd h List.not_mem_nil)

mutual

/-- Rendering an observed tree is a walk of its steps. -/
theorem walks_render : (path : List Nat) → (t : Tree ω ο) →
    Walks values.length (t.steps path)
      ((t.mapCalls Component.observed path).render backend values).events
      ((t.mapCalls Component.observed path).render backend values).status
  | _, text _ => walks_nil values
  | _, reference index => by
      rw [mapCalls, steps, render, substitution_eq]
      rcases hi : checkReferences values.length [index] with error | u
      · exact Walks.lookups_fail fun h => by
          rw [checkReferences_eq_ok_iff.mpr h] at hi
          cases hi
      · exact Walks.lookups_ok (checkReferences_eq_ok_iff.mp hi)
  | path, element tag attrs children => by
      rw [mapCalls, steps, render]
      exact walks_resolve fun texts _ =>
        walks_bind_element backend _ (walks_renderAll path 0 children)
  | path, component c attrs children => by
      rw [mapCalls, steps, render]
      refine walks_resolve fun texts hu => ?_
      obtain ⟨wholes, hw⟩ := exists_wholeValues hu
      rw [hw]
      exact walks_bind_call backend (fun output => c.render (.ofParts texts wholes output))
        (walks_renderAll path 0 children) (below_of_mem_stepsAll path 0 children)

theorem walks_renderAll (path : List Nat) : (i : Nat) → (ts : List (Tree ω ο)) →
    Walks values.length (stepsAll path i ts)
      (renderAll backend values (mapCallsAll Component.observed path i ts)).events
      (renderAll backend values (mapCallsAll Component.observed path i ts)).statusAll
  | _, [] => walks_nil values
  | i, t :: ts => by
      rw [mapCallsAll, stepsAll, renderAll]
      exact walks_cons (walks_render (path ++ [i]) t) (walks_renderAll path (i + 1) ts)
        (apart_steps path i t ts)

end

end Tree

end MarkupTemplate
