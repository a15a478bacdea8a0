import MarkupTemplate.Proofs.Rendering.Observation

/-!
# The component nodes of a tree

Rendering looks up the references of a tree and calls its components in a fixed order: the
attributes of a node come before its children, the children from left to right, and the call of a
component node last. Nodes are given by their paths. The nodes of two siblings are apart: none of
them is a node of the other, and none lies below one of the other.

## Main definitions

* `MarkupTemplate.Tree.steps` — the lookups and calls of a tree, in order.
* `MarkupTemplate.Tree.callSites` — the component nodes of a tree, in the order of their calls.
* `MarkupTemplate.Below`, `MarkupTemplate.Apart` — how nodes lie to each other.

## Main results

* `MarkupTemplate.apart_steps`, `MarkupTemplate.below_of_mem_stepsAll` — siblings are apart, and
  children lie below their parent.
* `MarkupTemplate.Tree.nodup_callSites` — every node has a path of its own.
-/

namespace MarkupTemplate

variable {ω ο α : Type}

/-! ### The steps of the walk -/

/-- A step of the walk through a tree. -/
inductive WalkStep where
  /-- The value of a slot is looked up. -/
  | use (index : Nat)
  /-- The component of the node at `path` is called. -/
  | call (path : List Nat)
  deriving DecidableEq, Repr

/-- The node that is called in a step, if one is. -/
def WalkStep.call? : WalkStep → Option (List Nat)
  | use _ => none
  | call path => some path

/-- The nodes that are called in steps. -/
def calls (steps : List WalkStep) : List (List Nat) := steps.filterMap WalkStep.call?

/-- The lookups of references. -/
def lookups (refs : List Nat) : List WalkStep := refs.map .use

namespace Tree

mutual

/-- The steps of the walk through a tree whose root is at `path`. -/
def steps (path : List Nat) : Tree ω ο → List WalkStep
  | text _ => []
  | reference index => lookups [index]
  | element _ attrs children => lookups (Attributes.references attrs) ++ stepsAll path 0 children
  | component _ attrs children =>
    lookups (Attributes.references attrs) ++ (stepsAll path 0 children ++ [.call path])

/-- The steps of the walk through the children of the node at `path`, from the position `i` on. -/
def stepsAll (path : List Nat) (i : Nat) : List (Tree ω ο) → List WalkStep
  | [] => []
  | t :: ts => steps (path ++ [i]) t ++ stepsAll path (i + 1) ts

end

/-- The paths of all component nodes, those below a node before the node and the children of a node
from left to right. -/
def callSites (t : Tree ω ο) : List (List Nat) := calls (t.steps [])

end Tree

/-- The node at `q` lies below the node at `p`. -/
def Below (p q : List Nat) : Prop := p <+: q ∧ p ≠ q

/-- No node of one list is a node of the other or lies below one. -/
def Apart (sites more : List (List Nat)) : Prop := ∀ p ∈ sites, ∀ q ∈ more, ¬ p <+: q ∧ ¬ q <+: p

/-- The nodes that are called in a log. -/
def calledPaths (log : List (NodeEvent ω)) : List (List Nat) :=
  log.filterMap fun
    | .called path _ => some path
    | .own _ => none
    | .produced _ => none

section Paths

/-- Where an element of a list stands that is put together from two. -/
theorem exists_of_append_eq {l m before after : List α} {a : α}
    (h : l ++ m = before ++ a :: after) :
    (∃ after', l = before ++ a :: after') ∨
      ∃ before', before = l ++ before' ∧ m = before' ++ a :: after := by
  rcases List.append_eq_append_iff.mp h with ⟨before', hb, hm⟩ | ⟨rest, hs, hr⟩
  · exact .inr ⟨before', hb, hm⟩
  · rcases rest with _ | ⟨s, rest⟩
    · exact .inr ⟨[], by simpa using hs.symm, hr.symm⟩
    · obtain ⟨rfl, -⟩ := List.cons.inj hr
      exact .inl ⟨rest, hs⟩

@[simp] theorem calls_append (steps more : List WalkStep) :
    calls (steps ++ more) = calls steps ++ calls more := List.filterMap_append ..

@[simp] theorem calls_lookups (refs : List Nat) : calls (lookups refs) = [] := by
  induction refs with
  | nil => rfl
  | cons index refs ih => exact ih

theorem mem_calls {steps : List WalkStep} {p : List Nat} : p ∈ calls steps ↔ .call p ∈ steps := by
  rw [calls, List.mem_filterMap]
  constructor
  · rintro ⟨step, hs, hp⟩
    cases step with
    | use index => cases hp
    | call path =>
      cases hp
      exact hs
  · exact fun h => ⟨_, h, rfl⟩

theorem mem_calledPaths {log : List (NodeEvent ω)} {p : List Nat} :
    p ∈ calledPaths log ↔ ∃ reply, .called p reply ∈ log := by
  rw [calledPaths, List.mem_filterMap]
  constructor
  · rintro ⟨e, he, hp⟩
    cases e with
    | called path reply =>
      cases hp
      exact ⟨reply, he⟩
    | own event => cases hp
    | produced path => cases hp
  · rintro ⟨reply, h⟩
    exact ⟨_, h, rfl⟩

@[simp] theorem calledPaths_append (log more : List (NodeEvent ω)) :
    calledPaths (log ++ more) = calledPaths log ++ calledPaths more := List.filterMap_append ..

theorem Apart.not_mem {sites more : List (List Nat)} (h : Apart sites more) {p : List Nat}
    (hp : p ∈ sites) : p ∉ more := fun hq => (h p hp p hq).1 List.prefix_rfl

mutual

/-- The nodes of a tree lie at its root or below. -/
theorem prefix_of_mem_steps : (path : List Nat) → (t : Tree ω ο) →
    ∀ q ∈ calls (t.steps path), path <+: q
  | _, .text _, _, h => absurd h List.not_mem_nil
  | _, .reference _, _, h => absurd h List.not_mem_nil
  | path, .element _ _ children, q, h => by
      rw [Tree.steps, calls_append, calls_lookups, List.nil_append] at h
      obtain ⟨j, -, hj⟩ := exists_of_mem_stepsAll path 0 children q h
      exact (List.prefix_append path [j]).trans hj
  | path, .component _ _ children, q, h => by
      rw [Tree.steps, calls_append, calls_lookups, List.nil_append, calls_append,
        List.mem_append] at h
      rcases h with h | h
      · obtain ⟨j, -, hj⟩ := exists_of_mem_stepsAll path 0 children q h
        exact (List.prefix_append path [j]).trans hj
      · exact List.mem_singleton.mp h ▸ List.prefix_rfl

/-- The nodes of siblings lie at one of them or below it. -/
theorem exists_of_mem_stepsAll (path : List Nat) : (i : Nat) → (ts : List (Tree ω ο)) →
    ∀ q ∈ calls (Tree.stepsAll path i ts), ∃ j, i ≤ j ∧ path ++ [j] <+: q
  | _, [], _, h => absurd h List.not_mem_nil
  | i, t :: ts, q, h => by
      rw [Tree.stepsAll, calls_append, List.mem_append] at h
      rcases h with h | h
      · exact ⟨i, Nat.le_refl i, prefix_of_mem_steps (path ++ [i]) t q h⟩
      · obtain ⟨j, hj, hq⟩ := exists_of_mem_stepsAll path (i + 1) ts q h
        exact ⟨j, Nat.le_of_succ_le hj, hq⟩

end

/-- The nodes of a tree and those of its later siblings do not lie below each other. -/
theorem apart_steps (path : List Nat) (i : Nat) (t : Tree ω ο) (ts : List (Tree ω ο)) :
    Apart (calls (t.steps (path ++ [i]))) (calls (Tree.stepsAll path (i + 1) ts)) := by
  intro p hp q hq
  have hi := prefix_of_mem_steps (path ++ [i]) t p hp
  obtain ⟨j, hj, hjq⟩ := exists_of_mem_stepsAll path (i + 1) ts q hq
  -- A path below both children would make their positions equal.
  have hne : ∀ r : List Nat, path ++ [i] <+: r → ¬ path ++ [j] <+: r := by
    intro r hir hjr
    have hl : (path ++ [i]).length = (path ++ [j]).length := by simp
    have he := (List.prefix_of_prefix_length_le hir hjr (Nat.le_of_eq hl)).eq_of_length hl
    have hij : i = j := by simpa using he
    omega
  exact ⟨fun h => hne q (hi.trans h) hjq, fun h => hne p hi (hjq.trans h)⟩

/-- The nodes of the children of a node lie below it. -/
theorem below_of_mem_stepsAll (path : List Nat) (i : Nat) (ts : List (Tree ω ο)) :
    ∀ q ∈ calls (Tree.stepsAll path i ts), Below path q := by
  intro q hq
  obtain ⟨j, -, hj⟩ := exists_of_mem_stepsAll path i ts q hq
  refine ⟨(List.prefix_append path [j]).trans hj, ?_⟩
  rintro rfl
  have hl := hj.length_le
  rw [List.length_append, List.length_singleton] at hl
  exact Nat.not_succ_le_self _ hl

theorem nodup_append_of_apart {sites more : List (List Nat)} (hs : sites.Nodup) (hm : more.Nodup)
    (ha : Apart sites more) : (sites ++ more).Nodup :=
  List.nodup_append.mpr ⟨hs, hm, fun p hp q hq => by
    rintro rfl
    exact ha.not_mem hp hq⟩

theorem nodup_concat_of_below {path : List Nat} {sites : List (List Nat)} (hs : sites.Nodup)
    (hbelow : ∀ q ∈ sites, Below path q) : (sites ++ [path]).Nodup :=
  List.nodup_append.mpr ⟨hs, by simp, fun q hq p hp => by
    rintro rfl
    exact (hbelow q hq).2 (List.mem_singleton.mp hp).symm⟩

mutual

theorem nodup_steps : (path : List Nat) → (t : Tree ω ο) → (calls (t.steps path)).Nodup
  | _, .text _ => List.nodup_nil
  | _, .reference _ => List.nodup_nil
  | path, .element _ _ children => by
      rw [Tree.steps, calls_append, calls_lookups]
      exact nodup_stepsAll path 0 children
  | path, .component _ _ children => by
      rw [Tree.steps, calls_append, calls_lookups, calls_append]
      exact nodup_concat_of_below (nodup_stepsAll path 0 children)
        (below_of_mem_stepsAll path 0 children)

theorem nodup_stepsAll (path : List Nat) : (i : Nat) → (ts : List (Tree ω ο)) →
    (calls (Tree.stepsAll path i ts)).Nodup
  | _, [] => List.nodup_nil
  | i, t :: ts => by
      rw [Tree.stepsAll, calls_append]
      exact nodup_append_of_apart (nodup_steps (path ++ [i]) t) (nodup_stepsAll path (i + 1) ts)
        (apart_steps path i t ts)

end

/-- No two component nodes of a tree have the same path. -/
theorem Tree.nodup_callSites (t : Tree ω ο) : t.callSites.Nodup := nodup_steps [] t

end Paths

end MarkupTemplate
