import MarkupTemplate.Proofs.Dom.Flatness

/-!
# What appending adds

Appending a node adds itself, or of a fragment the nodes that are reached from it through fragments
only. They come in the order of their paths, which is the order of dictionaries. The markup and the
text of a node are those of the list that it amounts to, so appending puts the markup and the text
of the added node behind those that are there.

## Main definitions

* `MarkupTemplate.Dom.Node.Through` — nodes that are reached through fragments only.
* `MarkupTemplate.Dom.Node.openPaths` — their paths.

## Main results

* `MarkupTemplate.Dom.Node.forall₂_openPaths`, `MarkupTemplate.Dom.Node.pairwise_openPaths`,
  `MarkupTemplate.Dom.Node.mem_openPaths_iff` — what a node amounts to.
* `MarkupTemplate.Dom.Node.textContentAll_flatten` — the text of what a node amounts to.
* `MarkupTemplate.Dom.Node.exists_append` — the node after appending.
-/

namespace MarkupTemplate.Dom.Node

variable {n : Node}

/-! ### Paths through fragments -/

/-- The path leads from the first node to the second, which is no fragment, through fragments
only. -/
inductive Through : Node → List Nat → Node → Prop
  | here {n : Node} (h : n.kind ≠ .fragment) : Through n [] n
  | inside {cs : List Node} {i : Nat} {c n : Node} {path : List Nat} (hc : cs[i]? = some c)
      (h : Through c path n) : Through (fragment cs) (i :: path) n

mutual

/-- The paths that lead from a node through fragments to what is no fragment. -/
def openPaths : Node → List (List Nat)
  | fragment cs => openPathsAll 0 cs
  | element .. => [[]]
  | text _ => [[]]
  | comment _ => [[]]
  | doctype _ => [[]]
  | instruction .. => [[]]

/-- Such paths from the nodes of a list, which stand from a position on among their siblings. -/
def openPathsAll (start : Nat) : List Node → List (List Nat)
  | [] => []
  | n :: ns => n.openPaths.map (start :: ·) ++ openPathsAll (start + 1) ns

end

/-- The path leads through fragments from one of the nodes, which stand from a position on among
their siblings. -/
def ThroughAll (start : Nat) (ns : List Node) (path : List Nat) (n : Node) : Prop :=
  ∃ i c rest, ns[i]? = some c ∧ path = (start + i) :: rest ∧ c.Through rest n

theorem ThroughAll.cons {start : Nat} {ns : List Node} {path : List Nat}
    (h : ThroughAll (start + 1) ns path n) (m : Node) : ThroughAll start (m :: ns) path n := by
  obtain ⟨i, c, rest, hc, rfl, ht⟩ := h
  exact ⟨i + 1, c, rest, hc, by rw [Nat.add_right_comm, Nat.add_assoc], ht⟩

mutual

/-- What a node amounts to stands at its open paths. -/
theorem forall₂_openPaths : (n : Node) → List.Forall₂ n.Through n.openPaths n.flatten
  | fragment cs => (forall₂_openPathsAll 0 cs).imp fun path n ⟨i, c, rest, hc, hp, ht⟩ => by
    rw [hp, Nat.zero_add]
    exact .inside hc ht
  | element .. => .cons (.here nofun) .nil
  | text _ => .cons (.here nofun) .nil
  | comment _ => .cons (.here nofun) .nil
  | doctype _ => .cons (.here nofun) .nil
  | instruction .. => .cons (.here nofun) .nil

theorem forall₂_openPathsAll (start : Nat) : (ns : List Node) →
    List.Forall₂ (ThroughAll start ns) (openPathsAll start ns) (flattenAll ns)
  | [] => .nil
  | n :: ns => by
    refine List.rel_append ?_ ?_
    · refine List.forall₂_map_left_iff.mpr ((forall₂_openPaths n).imp fun rest m h => ?_)
      exact ⟨0, n, rest, rfl, rfl, h⟩
    · exact (forall₂_openPathsAll (start + 1) ns).imp fun path m h => h.cons n

end

/-- Open paths from later siblings start later. -/
theorem exists_of_mem_openPathsAll {start : Nat} {ns : List Node} {path : List Nat}
    (h : path ∈ openPathsAll start ns) : ∃ i rest, start ≤ i ∧ path = i :: rest := by
  induction ns generalizing start with
  | nil => cases h
  | cons n ns ih =>
    rcases List.mem_append.mp h with h | h
    · obtain ⟨rest, -, rfl⟩ := List.mem_map.mp h
      exact ⟨start, rest, Nat.le_refl start, rfl⟩
    · obtain ⟨i, rest, hi, rfl⟩ := ih h
      exact ⟨i, rest, Nat.le_of_succ_le hi, rfl⟩

mutual

/-- Open paths are listed in the order of dictionaries. -/
theorem pairwise_openPaths : (n : Node) → n.openPaths.Pairwise (· < ·)
  | fragment cs => pairwise_openPathsAll 0 cs
  | element .. => List.pairwise_singleton _ _
  | text _ => List.pairwise_singleton _ _
  | comment _ => List.pairwise_singleton _ _
  | doctype _ => List.pairwise_singleton _ _
  | instruction .. => List.pairwise_singleton _ _

theorem pairwise_openPathsAll (start : Nat) : (ns : List Node) →
    (openPathsAll start ns).Pairwise (· < ·)
  | [] => List.Pairwise.nil
  | n :: ns => by
    refine List.pairwise_append.mpr ⟨?_, pairwise_openPathsAll (start + 1) ns, ?_⟩
    · exact List.pairwise_map.mpr ((pairwise_openPaths n).imp fun h =>
        List.cons_lt_cons_iff.mpr (.inr ⟨rfl, h⟩))
    · intro path hpath path' hpath'
      obtain ⟨rest, -, rfl⟩ := List.mem_map.mp hpath
      obtain ⟨i, rest', hi, rfl⟩ := exists_of_mem_openPathsAll hpath'
      exact List.cons_lt_cons_iff.mpr (.inl hi)

end

theorem mem_openPathsAll {start i : Nat} {ns : List Node} {c : Node} {path : List Nat}
    (hc : ns[i]? = some c) (h : path ∈ c.openPaths) :
    (start + i) :: path ∈ openPathsAll start ns := by
  induction ns generalizing start i with
  | nil => cases hc
  | cons n ns ih =>
    cases i with
    | zero =>
      cases hc
      exact List.mem_append_left _ (List.mem_map_of_mem h)
    | succ i =>
      rw [← Nat.add_assoc, Nat.add_right_comm]
      exact List.mem_append_right _ (ih hc)

/-- All paths through fragments are listed. -/
theorem mem_openPaths_iff {path : List Nat} :
    path ∈ n.openPaths ↔ ∃ m, n.Through path m := by
  constructor
  · have hall : List.Forall₂ (fun path m => (∃ m, n.Through path m) ∧ n.Through path m) n.openPaths
        n.flatten := (forall₂_openPaths n).imp fun path m h => ⟨⟨m, h⟩, h⟩
    exact ((List.forall₂_and_left _ _).mp hall).1 path
  · rintro ⟨m, h⟩
    induction h with
    | @here n h =>
      cases n with
      | fragment cs => exact absurd rfl h
      | _ => exact List.mem_singleton_self []
    | @inside cs i c n path hc h ih =>
      have hmem : (0 + i) :: path ∈ openPathsAll 0 cs := mem_openPathsAll hc ih
      rwa [Nat.zero_add] at hmem

theorem flatten_of_kind (h : n.kind ≠ .fragment) : n.flatten = [n] := by
  cases n with
  | fragment cs => exact absurd rfl h
  | _ => rfl

/-! ### Texts -/

theorem textContentAll_append (ms ns : List Node) :
    textContentAll (ms ++ ns) = textContentAll ms ++ textContentAll ns := by
  induction ms with
  | nil => exact String.empty_append.symm
  | cons m ms ih => rw [List.cons_append, textContentAll, textContentAll, ih, String.append_assoc]

mutual

/-- The text of a node is that of the nodes that it amounts to. -/
theorem textContentAll_flatten : (n : Node) → textContentAll n.flatten = n.textContent
  | element .. => String.append_empty
  | text _ => String.append_empty
  | comment _ => String.append_empty
  | doctype _ => String.append_empty
  | instruction .. => String.append_empty
  | fragment cs => textContentAll_flattenAll cs

theorem textContentAll_flattenAll : (ns : List Node) →
    textContentAll (flattenAll ns) = textContentAll ns
  | [] => rfl
  | n :: ns => by
    rw [flattenAll, textContentAll_append, textContentAll_flatten n, textContentAll_flattenAll ns,
      textContentAll]

end

/-! ### Appending -/

theorem textContent_of_isParent (h : n.isParent = true) :
    n.textContent = textContentAll n.children := by
  cases n with
  | element | fragment => rfl
  | _ => cases h

/-- A node that can have children gets what another one amounts to, behind the children that it
has, and the markup and the text of this behind its own. -/
theorem exists_append {p : Node} (hp : p.isParent = true) (c : Node) :
    ∃ p', p.append c = .ok p' ∧ p' = p.withChildren (p.children ++ c.flatten) ∧
      p'.children = p.children ++ c.flatten ∧
      p'.innerHtml = p.innerHtml ++ c.outerHtml ∧
      p'.textContent = p.textContent ++ c.textContent := by
  have hchildren := children_withChildren hp (p.children ++ c.flatten)
  have hp' : (p.withChildren (p.children ++ c.flatten)).isParent = true := by
    cases p with
    | element | fragment => rfl
    | _ => cases hp
  refine ⟨_, (append_eq p c).trans (if_pos hp), rfl, hchildren, ?_, ?_⟩
  · rw [innerHtml, inner, hchildren, writeAll_append, writeAll_flatten]
    rfl
  · rw [textContent_of_isParent hp', hchildren, textContentAll_append, textContentAll_flatten,
      textContent_of_isParent hp]

end MarkupTemplate.Dom.Node
