import MarkupTemplate.Proofs.Rendering.Timing
import MarkupTemplate.Proofs.Rendering.Walk
import MarkupTemplate.Proofs.Suspension.Logs

/-!
# Calls are made once, eagerly and from the bottom up

What happens before the first poll is a walk through the tree. What happens over all polls is
followed by `Orderly`: in a log no node is called twice, and a node is called when the outputs of
all nodes below it are there. Siblings mix their logs when they wait side by side. Their nodes are
apart, so a log mixed of orderly ones is orderly. A node is called when the join of its children
has its value, and then the logs of all children are complete.

## Main definitions

* `MarkupTemplate.Orderly`, `MarkupTemplate.Complete` — the properties of logs.
* `MarkupTemplate.Job.RunsOrderly` — a job with an orderly log, complete if it comes to a value.
* `MarkupTemplate.Tree.EagerCalls`, `MarkupTemplate.Tree.SingleCalls` — which calls a tree makes
  before the first poll, and over all polls.

## Main results

* `MarkupTemplate.Tree.runsOrderly_render` — observed narrow trees run orderly.
* `MarkupTemplate.Tree.calls_spec` — calls are made at most once, eagerly and from the bottom up.
-/

namespace MarkupTemplate

variable {ω ο α β : Type}

/-! ### Orderly logs -/

/-- A log of the nodes `sites` in which no node is called twice, and a node is called when the
outputs of all nodes below it are there. -/
structure Orderly (sites : List (List Nat)) (log : List (NodeEvent ω)) : Prop where
  nodup : (calledPaths log).Nodup
  subset : calledPaths log ⊆ sites
  after : ∀ pre p reply post, log = pre ++ .called p reply :: post →
    ∀ q ∈ sites, Below p q → .produced q ∈ pre

/-- All nodes have been called, and their outputs are there. -/
def Complete (sites : List (List Nat)) (log : List (NodeEvent ω)) : Prop :=
  ∀ q ∈ sites, q ∈ calledPaths log ∧ .produced q ∈ log

namespace Orderly

variable {sites more : List (List Nat)} {log next : List (NodeEvent ω)}

theorem nil (sites : List (List Nat)) : Orderly (ω := ω) sites [] where
  nodup := List.nodup_nil
  subset := List.nil_subset _
  after pre p reply post h := absurd h.symm (by simp)

theorem of_prefix (h : Orderly sites next) (hl : log <+: next) : Orderly sites log := by
  obtain ⟨rest, rfl⟩ := hl
  refine ⟨?_, ?_, fun pre p reply post he => ?_⟩
  · exact h.nodup.sublist (calledPaths_append log rest ▸ List.sublist_append_left ..)
  · exact fun p hp => h.subset (calledPaths_append log rest ▸ List.mem_append_left _ hp)
  · exact h.after pre p reply (post ++ rest) (by rw [he, List.append_assoc, List.cons_append])

theorem perm_calledPaths {a b l : List (NodeEvent ω)} (h : Interleaves a b l) :
    (calledPaths l).Perm (calledPaths a ++ calledPaths b) :=
  calledPaths_append a b ▸ h.perm.filterMap _

/-- A log that is mixed of orderly logs of nodes that are apart is orderly. -/
theorem interleave {a b l : List (NodeEvent ω)} (ha : Orderly sites a) (hb : Orderly more b)
    (hd : Apart sites more) (hl : Interleaves a b l) : Orderly (sites ++ more) l where
  nodup := by
    refine (perm_calledPaths hl).nodup_iff.mpr (List.nodup_append.mpr ⟨ha.nodup, hb.nodup, ?_⟩)
    rintro p hp q hq rfl
    exact hd.not_mem (ha.subset hp) (hb.subset hq)
  subset p hp := by
    rcases List.mem_append.mp ((perm_calledPaths hl).mem_iff.mp hp) with h | h
    · exact List.mem_append_left _ (ha.subset h)
    · exact List.mem_append_right _ (hb.subset h)
  after pre p reply post he q hq hpq := by
    rcases hl.exists_of_split he with ⟨pre', post', rfl, hpre⟩ | ⟨pre', post', rfl, hpre⟩
    · have hp : p ∈ sites := ha.subset (mem_calledPaths.mpr ⟨reply, by simp⟩)
      rcases List.mem_append.mp hq with hq | hq
      · exact hpre (ha.after pre' p reply post' rfl q hq hpq)
      · exact absurd hpq.1 (hd p hp q hq).1
    · have hp : p ∈ more := hb.subset (mem_calledPaths.mpr ⟨reply, by simp⟩)
      rcases List.mem_append.mp hq with hq | hq
      · exact absurd hpq.1 (hd q hq p hp).2
      · exact hpre (hb.after pre' p reply post' rfl q hq hpq)

/-- An orderly log stays orderly if nothing is said of a node above. -/
theorem concat {path : List Nat} (h : Orderly sites log) (hbelow : ∀ q ∈ sites, Below path q) :
    Orderly (sites ++ [path]) log where
  nodup := h.nodup
  subset := fun p hp => List.mem_append_left _ (h.subset hp)
  after pre p reply post he q hq hpq := by
    rcases List.mem_append.mp hq with hq | hq
    · exact h.after pre p reply post he q hq hpq
    · have hp : p ∈ sites := h.subset (mem_calledPaths.mpr ⟨reply, by simp [he]⟩)
      obtain rfl := List.mem_singleton.mp hq
      exact absurd (hpq.1.eq_of_length_le (hbelow p hp).1.length_le) hpq.2

/-- When all nodes below have given their outputs, a node may be called. -/
theorem call {path : List Nat} {reply : Reply} {rest : List (NodeEvent ω)} (h : Orderly sites log)
    (hc : Complete sites log) (hbelow : ∀ q ∈ sites, Below path q) (hrest : calledPaths rest = []) :
    Orderly (sites ++ [path]) (log ++ .called path reply :: rest) := by
  have hpath : path ∉ sites := fun hp => (hbelow path hp).2 rfl
  have hcalled : calledPaths (log ++ .called path reply :: rest) = calledPaths log ++ [path] := by
    rw [calledPaths_append]
    exact congrArg (calledPaths log ++ path :: ·) hrest
  refine ⟨?_, ?_, fun pre p r post he q hq hpq => ?_⟩
  · rw [hcalled]
    refine List.nodup_append.mpr ⟨h.nodup, by simp, fun p hp q hq => ?_⟩
    rintro rfl
    exact hpath (List.mem_singleton.mp hq ▸ h.subset hp)
  · rw [hcalled]
    intro p hp
    exact List.mem_append.mpr ((List.mem_append.mp hp).imp_left fun hl => h.subset hl)
  · rcases exists_of_append_eq he with ⟨post', hl⟩ | ⟨pre', rfl, hm⟩
    · exact (h.concat hbelow).after pre p r post' hl q hq hpq
    · rcases pre' with _ | ⟨e, pre'⟩
      · obtain ⟨⟨rfl, rfl⟩, rfl⟩ : (path = p ∧ reply = r) ∧ rest = post := by simpa using hm
        rcases List.mem_append.mp hq with hq | hq
        · exact List.mem_append_left _ (hc q hq).2
        · exact absurd (List.mem_singleton.mp hq).symm hpq.2
      · obtain ⟨-, rfl⟩ := List.cons.inj hm
        have hp : p ∈ calledPaths (pre' ++ .called p r :: post) :=
          mem_calledPaths.mpr ⟨r, by simp⟩
        exact absurd (hrest ▸ hp) List.not_mem_nil

end Orderly

namespace Complete

variable {sites more : List (List Nat)}

theorem interleave {a b l : List (NodeEvent ω)} (ha : Complete sites a) (hb : Complete more b)
    (hl : Interleaves a b l) : Complete (sites ++ more) l := by
  have hmem : ∀ q : List Nat, q ∈ calledPaths a ∨ q ∈ calledPaths b → q ∈ calledPaths l :=
    fun q hq => (Orderly.perm_calledPaths hl).mem_iff.mpr (List.mem_append.mpr hq)
  have hprod : ∀ e, e ∈ a ∨ e ∈ b → e ∈ l :=
    fun e he => hl.perm.mem_iff.mpr (List.mem_append.mpr he)
  intro q hq
  rcases List.mem_append.mp hq with hq | hq
  · exact ⟨hmem q (.inl (ha q hq).1), hprod _ (.inl (ha q hq).2)⟩
  · exact ⟨hmem q (.inr (hb q hq).1), hprod _ (.inr (hb q hq).2)⟩

/-- An orderly and complete log calls every node once. -/
theorem perm {log : List (NodeEvent ω)} (hc : Complete sites log) (h : Orderly sites log)
    (hs : sites.Nodup) : (calledPaths log).Perm sites :=
  (List.perm_ext_iff_of_nodup h.nodup hs).mpr fun q =>
    ⟨fun hq => h.subset hq, fun hq => (hc q hq).1⟩

end Complete

/-! ### Orderly runs -/

/-- The log of a job is orderly, and it is complete if the job comes to a value. -/
structure Job.RunsOrderly (sites : List (List Nat)) (t : Job (NodeEvent ω) α) : Prop where
  orderly : Orderly sites t.log
  complete : t.value?.isSome → Complete sites t.log

namespace Job

variable {sites more : List (List Nat)}

theorem RunsOrderly.map {t : Job (NodeEvent ω) α} (h : t.RunsOrderly sites) (f : α → β) :
    (t.map f).RunsOrderly sites where
  orderly := log_map f t ▸ h.orderly
  complete hv := log_map f t ▸ h.complete (by simpa using hv)

/-- Two jobs of nodes that are apart run orderly side by side, after the records made so far. -/
theorem RunsOrderly.both {es fs : List (NodeEvent ω)} {t : Job (NodeEvent ω) α}
    {u : Job (NodeEvent ω) β} (ht : (t.prepend (.ofEvents es)).RunsOrderly sites)
    (hu : (u.prepend (.ofEvents fs)).RunsOrderly more) (hd : Apart sites more) :
    ((both t u).prepend (.ofEvents (es ++ fs))).RunsOrderly (sites ++ more) := by
  obtain ⟨a, b, ha, hb, hl, hv⟩ := exists_interleaves_both t u
  have hmix : Interleaves (es ++ a) (fs ++ b) ((es ++ fs) ++ (Job.both t u).log) :=
    (Interleaves.of_append es fs).append hl
  have hpa : es ++ a <+: (t.prepend (.ofEvents es)).log :=
    log_prepend (.ofEvents es) t ▸ (List.prefix_append_right_inj es).mpr ha
  have hpb : fs ++ b <+: (u.prepend (.ofEvents fs)).log :=
    log_prepend (.ofEvents fs) u ▸ (List.prefix_append_right_inj fs).mpr hb
  refine ⟨?_, fun hs => ?_⟩
  · rw [log_prepend]
    exact (ht.orderly.of_prefix hpa).interleave (hu.orderly.of_prefix hpb) hd hmix
  · rw [value?_prepend] at hs
    obtain ⟨p, hp⟩ := Option.isSome_iff_exists.mp hs
    obtain ⟨rfl, rfl, hvt, hvu⟩ := hv p hp
    have hct := ht.complete (by simp [hvt])
    have hcu := hu.complete (by simp [hvu])
    rw [log_prepend] at hct hcu ⊢
    exact hct.interleave hcu hmix

theorem calledPaths_log_observe (path : List Nat) : (t : Job ω α) →
    calledPaths (t.observe path).log = []
  | settles poll (.ok a) => by
      rw [observe, log_settles, Poll.events_append, calledPaths_append]
      exact congrArg (· ++ []) (Attempt.calledPaths_own poll.events)
  | settles poll (.error error) => Attempt.calledPaths_own poll.events
  | waits events t => by
      rw [observe, log_waits, calledPaths_append, Attempt.calledPaths_own,
        calledPaths_log_observe path t, List.append_nil]
  | stalls poll => Attempt.calledPaths_own poll.events

/-- An observed job that comes to a value records that it is there. -/
theorem produced_mem_log_observe (path : List Nat) : (t : Job ω α) →
    (t.observe path).value?.isSome → .produced path ∈ (t.observe path).log
  | settles poll (.ok a), _ => by simp [observe, Poll.ofEvents]
  | settles _ (.error _), h => by simp [observe] at h
  | waits events t, h => List.mem_append_right _ (produced_mem_log_observe path t h)
  | stalls _, h => by simp [observe] at h

end Job

/-- The records of a call that is polled to its end. -/
theorem Attempt.exists_log_observe (path : List Nat) (x : Attempt ω (Rendered ω α)) :
    ∃ rest, (x.observe path).toJob.log = .called path x.reply :: rest ∧ calledPaths rest = [] ∧
      ((x.observe path).toJob.value?.isSome → .produced path ∈ rest) := by
  rcases x with ⟨events, error | a | t⟩
  · exact ⟨_, rfl, calledPaths_own events, nofun⟩
  · refine ⟨_, rfl, ?_, fun _ => by simp⟩
    rw [calledPaths_append, calledPaths_own]
    rfl
  · refine ⟨events.map .own ++ (t.observe path).log, ?_, ?_, fun hv => ?_⟩
    · exact Job.log_prepend
        (.ofEvents (.called path .suspended :: events.map .own)) (t.observe path)
    · rw [calledPaths_append, calledPaths_own, Job.calledPaths_log_observe, List.append_nil]
    · refine List.mem_append_right _ (Job.produced_mem_log_observe path t ?_)
      exact (Job.value?_prepend _ (t.observe path)).symm ▸ hv

/-- A call that follows a job of the nodes below runs orderly. -/
theorem Job.RunsOrderly.andThen {sites : List (List Nat)} {path : List Nat}
    {t : Job (NodeEvent ω) α} (ht : t.RunsOrderly sites) (hbelow : ∀ q ∈ sites, Below path q)
    (k : α → Attempt ω (Rendered ω β)) :
    (t.andThen fun a => (k a).observe path).RunsOrderly (sites ++ [path]) := by
  cases hv : t.value? with
  | none =>
    refine ⟨?_, fun hs => ?_⟩
    · rw [log_andThen, hv]
      exact (List.append_nil t.log).symm ▸ ht.orderly.concat hbelow
    · rw [value?_andThen, hv] at hs
      cases hs
  | some a =>
    have hc := ht.complete (by simp [hv])
    obtain ⟨rest, hlog, hrest, hprod⟩ := Attempt.exists_log_observe path (k a)
    have he : (t.andThen fun a => (k a).observe path).log =
        t.log ++ .called path (k a).reply :: rest := by
      rw [log_andThen, hv, ← hlog]
      rfl
    have hcalled : calledPaths (t.log ++ .called path (k a).reply :: rest) =
        calledPaths t.log ++ path :: calledPaths rest := calledPaths_append ..
    refine ⟨he ▸ ht.orderly.call hc hbelow hrest, fun hs q hq => ?_⟩
    rw [value?_andThen, hv] at hs
    rw [he, hcalled]
    rcases List.mem_append.mp hq with hq | hq
    · exact ⟨List.mem_append_left _ (hc q hq).1, List.mem_append_left _ (hc q hq).2⟩
    · obtain rfl := List.mem_singleton.mp hq
      exact ⟨by simp, List.mem_append_right _ (List.mem_cons_of_mem _ (hprod hs))⟩

namespace Tree

variable (backend : Backend ο) (values : List Value) {sites more : List (List Nat)}

/-- The attempt at the results of siblings fails with an orderly log, or the results are jobs that
run orderly side by side. -/
def SiblingsRunOrderly (sites : List (List Nat)) (n : Nat)
    (x : Attempt (NodeEvent ω) (List (Rendered (NodeEvent ω) ο))) : Prop :=
  match x.result with
  | .error _ => Orderly sites x.events
  | .ok rs => rs.length = n ∧
    ((Job.joinRounds (rs.map Rendered.toJob)).prepend (.ofEvents x.events)).RunsOrderly sites

theorem siblingsRunOrderly_cons {x : Attempt (NodeEvent ω) (Rendered (NodeEvent ω) ο)}
    {y : Attempt (NodeEvent ω) (List (Rendered (NodeEvent ω) ο))} {n : Nat}
    (hx : x.toJob.RunsOrderly sites) (hy : SiblingsRunOrderly more n y) (hd : Apart sites more) :
    SiblingsRunOrderly (sites ++ more) (n + 1) (do let r ← x; let rs ← y; return r :: rs) := by
  rcases x with ⟨es, error | r⟩
  · exact hx.orderly.interleave (.nil more) hd (.all_left _)
  · rw [Attempt.toJob_mk_ok] at hx
    rcases y with ⟨fs, error | rs⟩
    · have hp : es <+: (r.toJob.prepend (.ofEvents es)).log :=
        Job.log_prepend (.ofEvents es) r.toJob ▸ List.prefix_append ..
      exact (hx.orderly.of_prefix hp).interleave hy hd (.of_append es fs)
    · have he : (do
          let r ← (⟨es, .ok r⟩ : Attempt (NodeEvent ω) (Rendered (NodeEvent ω) ο))
          let rs ← ⟨fs, .ok rs⟩
          return r :: rs) = ⟨es ++ fs, .ok (r :: rs)⟩ :=
        congrArg (Attempt.mk · (.ok (r :: rs))) (congrArg (es ++ ·) (List.append_nil fs))
      rw [he]
      refine ⟨congrArg Nat.succ hy.1, ?_⟩
      rw [List.map_cons, Job.joinRounds, ← Job.map_prepend]
      exact (hx.both hy.2 hd).map _

/-- What follows the joined siblings runs orderly if it keeps orderly jobs so. -/
theorem runsOrderly_bind_joinRendered {n : Nat} (hn : n ≤ Job.roundLimit)
    {x : Attempt (NodeEvent ω) (List (Rendered (NodeEvent ω) ο))}
    (hx : SiblingsRunOrderly sites n x) {k : Rendered (NodeEvent ω) ο →
      Attempt (NodeEvent ω) (Rendered (NodeEvent ω) ο)}
    (hmore : ∀ log : List (NodeEvent ω), Orderly sites log → Orderly more log)
    (hk : ∀ r events, (r.toJob.prepend (.ofEvents events)).RunsOrderly sites →
      ((k r).prepend events).toJob.RunsOrderly more) :
    (x >>= fun rs => k (joinRendered backend rs)).toJob.RunsOrderly more := by
  rcases x with ⟨events, error | rs⟩
  · exact ⟨hmore _ hx, nofun⟩
  · refine hk _ events ?_
    have hl : Rendered.IsRoundJoin rs := .inl (hx.1 ▸ hn)
    rw [joinRendered, Rendered.toJob_map, Rendered.toJob_joinAll hl, ← Job.map_prepend]
    exact hx.2.map _

/-- A step that is taken if the attributes of a node can be resolved. -/
theorem runsOrderly_ofExcept_bind (r : Except Error α)
    {k : α → Attempt (NodeEvent ω) (Rendered (NodeEvent ω) β)}
    (hk : ∀ a, (k a).toJob.RunsOrderly sites) :
    (Attempt.ofExcept r >>= k).toJob.RunsOrderly sites := by
  cases r with
  | error error => exact ⟨.nil sites, nofun⟩
  | ok a => exact hk a

theorem runsOrderly_ready (a : α) :
    (Attempt.succeed (.ready a) : Attempt (NodeEvent ω) (Rendered _ α)).toJob.RunsOrderly [] :=
  ⟨.nil [], fun _ => by simp [Complete]⟩

mutual

/-- An observed narrow tree runs orderly, and it has called all its nodes if it succeeds. -/
theorem runsOrderly_render : (path : List Nat) → (t : Tree ω ο) → t.Narrow →
    ((t.mapCalls Component.observed path).render backend values).toJob.RunsOrderly
      (calls (t.steps path))
  | _, text _, _ => runsOrderly_ready _
  | _, reference index, _ => by
      rw [mapCalls, steps, render, calls_lookups]
      exact runsOrderly_ofExcept_bind _ fun v => runsOrderly_ready _
  | path, element tag attrs children, ⟨hn, hs⟩ => by
      rw [mapCalls, steps, render, calls_append, calls_lookups, List.nil_append]
      refine runsOrderly_ofExcept_bind _ fun texts => ?_
      refine runsOrderly_bind_joinRendered backend hn
        (siblingsRunOrderly_renderAll path 0 children hs)
        (k := fun r => pure (r.map (backend.element tag texts))) (fun log h => h)
        fun r events h => ?_
      have hj : (pure (r.map (backend.element tag texts)) :
          Attempt (NodeEvent ω) (Rendered _ ο)).toJob = r.toJob.map (backend.element tag texts) :=
        (Attempt.toJob_succeed _).trans (Rendered.toJob_map _ r)
      rw [Attempt.toJob_prepend, hj, ← Job.map_prepend]
      exact h.map _
  | path, component c attrs children, ⟨hn, hs⟩ => by
      have hbelow := below_of_mem_stepsAll path 0 children
      rw [mapCalls, steps, render, calls_append, calls_lookups, List.nil_append, calls_append]
      refine runsOrderly_ofExcept_bind _ fun texts => ?_
      refine runsOrderly_ofExcept_bind _ fun wholes => ?_
      refine runsOrderly_bind_joinRendered backend hn
        (siblingsRunOrderly_renderAll path 0 children hs)
        (k := fun r => r.andThen fun output =>
          (c.render (.ofParts texts wholes output)).observe path)
        (fun log h => h.concat hbelow) fun r events h => ?_
      rw [Attempt.toJob_prepend, Rendered.toJob_andThen, ← Job.prepend_andThen]
      exact h.andThen hbelow fun output => c.render (.ofParts texts wholes output)

theorem siblingsRunOrderly_renderAll (path : List Nat) : (i : Nat) → (ts : List (Tree ω ο)) →
    NarrowAll ts → SiblingsRunOrderly (calls (stepsAll path i ts)) ts.length
      (renderAll backend values (mapCallsAll Component.observed path i ts))
  | _, [], _ => ⟨rfl, runsOrderly_ready ([] : List ο)⟩
  | i, t :: ts, ⟨h, hs⟩ => by
      rw [mapCallsAll, stepsAll, renderAll, calls_append]
      exact siblingsRunOrderly_cons (runsOrderly_render (path ++ [i]) t h)
        (siblingsRunOrderly_renderAll path (i + 1) ts hs) (apart_steps path i t ts)

end

/-! ### The calls of a tree -/

/-- What is recorded before the first poll. -/
def walkLog (t : Tree ω ο) : List (NodeEvent ω) := (t.observed.render backend values).events

/-- What is recorded over all polls, from the start. -/
def runLog (t : Tree ω ο) : List (NodeEvent ω) := (t.observed.render backend values).settle.1

/-- The calls that a tree makes before the first poll. -/
structure EagerCalls (t : Tree ω ο) : Prop where
  /-- Nodes are called below before above, and from left to right. -/
  sublist : (calledPaths (t.walkLog backend values)).Sublist t.callSites
  /-- A node is called exactly if no earlier step has failed and no call below it waits. -/
  called_iff : ∀ before p after, t.steps [] = before ++ .call p :: after →
    (p ∈ calledPaths (t.walkLog backend values) ↔
      Clear values.length before (t.walkLog backend values) ∧
        ¬ Blocked p (t.walkLog backend values))
  /-- Nothing is called after a call that is refused. -/
  stops : ∀ pre p post, t.walkLog backend values = pre ++ .called p .refused :: post →
    calledPaths post = []
  /-- Rendering returns without an error exactly if no step has failed. -/
  ok_iff : (∃ r, (t.render backend values).result = .ok r) ↔
    Clear values.length (t.steps []) (t.walkLog backend values)
  /-- What it returns then is pending exactly if one of the calls waits. -/
  pending_iff : ∀ r, (t.render backend values).result = .ok r →
    (r.isPending = true ↔ ∃ p, .called p .suspended ∈ t.walkLog backend values)

/-- The calls that a tree makes over all polls. -/
structure SingleCalls (t : Tree ω ο) : Prop where
  /-- No node is called twice. -/
  nodup : (calledPaths (t.runLog backend values)).Nodup
  subset : calledPaths (t.runLog backend values) ⊆ t.callSites
  /-- A node is called when the outputs of all nodes below it are there. -/
  after : ∀ pre p reply post, t.runLog backend values = pre ++ .called p reply :: post →
    ∀ q ∈ t.callSites, Below p q → .produced q ∈ pre
  /-- Every node has been called once if the tree comes to an output. -/
  all : ∀ output, (t.outcome backend values).value? = some output →
    (calledPaths (t.runLog backend values)).Perm t.callSites

end Tree

/-! ### Erasing records again -/

section Pick

variable {ω' : Type} (g : ω → Option ω')

theorem Rendered.isPending_pick : (r : Rendered ω α) → (r.pick g).isPending = r.isPending
  | ready _ => rfl
  | pending _ => rfl

theorem Attempt.status_pick : (x : Attempt ω (Rendered ω α)) → (x.pick g).status = x.status
  | ⟨_, .error _⟩ => rfl
  | ⟨_, .ok r⟩ => congrArg some (Rendered.isPending_pick g r)

theorem Job.value?_pick : (t : Job ω α) → (t.pick g).value? = t.value?
  | settles _ (.ok _) => rfl
  | settles _ (.error _) => rfl
  | waits _ t => value?_pick t
  | stalls _ => rfl

end Pick

theorem Attempt.isSome_status_iff : (x : Attempt ω (Rendered ω α)) →
    x.status.isSome ↔ ∃ r, x.result = .ok r
  | ⟨_, .error _⟩ => iff_of_false nofun nofun
  | ⟨_, .ok r⟩ => iff_of_true rfl ⟨r, rfl⟩

theorem Attempt.status_of_ok {x : Attempt ω (Rendered ω α)} {r : Rendered ω α}
    (h : x.result = .ok r) : x.status = some r.isPending := by
  rw [status, h]
  rfl

namespace Tree

variable (backend : Backend ο) (values : List Value)

/-- **Calls are made at most once, eagerly and from the bottom up.** For every narrow tree, all
values, every backend and whatever the components do: the call of rendering itself calls the
components in the order of their nodes, below before above and from left to right, each exactly if
no earlier step has failed and no call below waits, and it returns a pending result exactly if a
call waits. Over all polls no node is called twice, a node is called when the outputs of all nodes
below it are there, and if the tree comes to an output every node has been called once. -/
theorem calls_spec (t : Tree ω ο) (h : t.Narrow) :
    t.EagerCalls backend values ∧ t.SingleCalls backend values := by
  have herase := pick_render_observed backend values t h
  have hw := walks_render backend values [] t
  have hrun := runsOrderly_render backend values [] t h
  have hstatus : (t.render backend values).status = (t.observed.render backend values).status :=
    herase ▸ Attempt.status_pick NodeEvent.own? _
  have hlog : t.runLog backend values = (t.observed.render backend values).toJob.log :=
    Attempt.settle_events _
  have hvalue : (t.outcome backend values).value? =
      (t.observed.render backend values).toJob.value? := by
    rw [outcome, Attempt.settle_value?, ← herase, Attempt.toJob_pick, Job.value?_pick]
  refine ⟨⟨hw.sublist, hw.called_iff, fun pre p post hl => hw.stops hl, ?_, fun r hr => ?_⟩,
    ⟨?_, ?_, ?_, fun output ho => ?_⟩⟩
  · rw [← Attempt.isSome_status_iff, hstatus]
    exact hw.isSome_iff
  · exact hw.pending_iff _ (hstatus ▸ Attempt.status_of_ok hr)
  · exact hlog ▸ hrun.orderly.nodup
  · exact hlog ▸ hrun.orderly.subset
  · exact hlog ▸ hrun.orderly.after
  · have hv : (t.observed.render backend values).toJob.value?.isSome := by
      rw [← hvalue, ho]
      rfl
    exact hlog ▸ (hrun.complete hv).perm hrun.orderly t.nodup_callSites

/-- A call around two others, the first of which comes two polls late. -/
def nestedCalls : Tree Unit String :=
  .component ⟨"Card", 1, fun props => .succeed (.ready props.children)⟩ [] [
    .component ⟨"Slow", 2, fun _ => .succeed (.pending (.delay (.settled [] (.ok "a")) 2))⟩ [] [],
    .element "p" [] [
      .component ⟨"Fast", 3, fun _ => .succeed (.ready "b")⟩ [("title", .single (.reference 0))] []]]

/-- The calls of the children are made at once, and that of their parent when the late answer is
there. -/
theorem calls_nestedCalls :
    nestedCalls.Narrow ∧
      calledPaths (nestedCalls.walkLog .text [.null]) = [[0], [1, 0]] ∧
      calledPaths (nestedCalls.runLog .text [.null]) = [[0], [1, 0], []] ∧
      nestedCalls.EagerCalls .text [.null] ∧ nestedCalls.SingleCalls .text [.null] := by
  have h : nestedCalls.Narrow := by simp [nestedCalls, Narrow, NarrowAll, Job.roundLimit]
  exact ⟨h, by decide, by decide, calls_spec .text [.null] nestedCalls h⟩

end Tree

end MarkupTemplate
