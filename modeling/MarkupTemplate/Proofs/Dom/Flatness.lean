import MarkupTemplate.Dom.Path
import MarkupTemplate.Proofs.KeyedLists
import MarkupTemplate.Proofs.Rendering.Prompt

/-!
# Flat nodes

A node is flat if no element and no fragment in it has a fragment among its children, and no element
has two attributes of one name. A flat node may be a fragment itself. Appending dissolves fragments,
so changes of flat nodes give flat nodes again, at any path within a tree.

## Main definitions

* `MarkupTemplate.Dom.Node.Flat`, `MarkupTemplate.Dom.Node.FlatAll` — flat nodes, and lists of flat
  nodes without fragments.
* `MarkupTemplate.Dom.Edit`, `MarkupTemplate.Dom.Node.editAt` — changes of a node in its place.

## Main results

* `MarkupTemplate.Dom.Node.Flat.flatten` — what a flat node amounts to.
* `MarkupTemplate.Dom.Node.appendInPlace_eq`, `MarkupTemplate.Dom.Node.removeInPlace_eq` — what
  changes of the children do, and when they fail.
* `MarkupTemplate.Dom.Node.Flat.editAt` — flat nodes stay flat.
* `MarkupTemplate.Dom.Node.perform_of_error`, `MarkupTemplate.Dom.Node.editAt_of_error` — a change
  that fails leaves the node and the tree as they are.
-/

namespace MarkupTemplate.Dom

namespace Node

/-! ### Flat nodes -/

mutual

/-- No element or fragment in the node has a fragment among its children, and the attributes of
each element have distinct names. -/
def Flat : Node → Prop
  | element _ attrs cs => attrs.keys.Nodup ∧ FlatAll cs
  | fragment cs => FlatAll cs
  | text _ => True
  | comment _ => True
  | doctype _ => True
  | instruction .. => True

/-- The nodes of the list are flat, and none is a fragment. -/
def FlatAll : List Node → Prop
  | [] => True
  | n :: ns => (n.kind ≠ .fragment ∧ n.Flat) ∧ FlatAll ns

end

mutual

/-- Decides whether a node is flat. -/
private def decFlat : (n : Node) → Decidable n.Flat
  | element _ _ cs =>
    have := decFlatAll cs
    inferInstanceAs (Decidable (_ ∧ _))
  | fragment cs => decFlatAll cs
  | text _ => isTrue trivial
  | comment _ => isTrue trivial
  | doctype _ => isTrue trivial
  | instruction .. => isTrue trivial

/-- Decides whether nodes are flat and no fragments. -/
private def decFlatAll : (ns : List Node) → Decidable (FlatAll ns)
  | [] => isTrue trivial
  | n :: ns =>
    have := decFlat n
    have := decFlatAll ns
    inferInstanceAs (Decidable (_ ∧ _))

end

instance : DecidablePred Flat := decFlat

variable {n p c : Node} {ns : List Node}

theorem flatAll_iff : FlatAll ns ↔ ∀ n ∈ ns, n.kind ≠ .fragment ∧ n.Flat := by
  induction ns with
  | nil => exact iff_of_true trivial (List.forall_mem_nil _)
  | cons n ns ih => rw [FlatAll, ih, List.forall_mem_cons]

theorem flatAll_append {ms : List Node} : FlatAll (ms ++ ns) ↔ FlatAll ms ∧ FlatAll ns := by
  simp only [flatAll_iff, List.forall_mem_append]

theorem Flat.children (h : n.Flat) : FlatAll n.children := by
  cases n with
  | element name attrs cs => exact h.2
  | fragment cs => exact h
  | _ => trivial

mutual

theorem Flat.flatten : {n : Node} → n.Flat → FlatAll n.flatten
  | element .., h => ⟨⟨nofun, h⟩, trivial⟩
  | text _, _ => ⟨⟨nofun, trivial⟩, trivial⟩
  | comment _, _ => ⟨⟨nofun, trivial⟩, trivial⟩
  | doctype _, _ => ⟨⟨nofun, trivial⟩, trivial⟩
  | instruction .., _ => ⟨⟨nofun, trivial⟩, trivial⟩
  | fragment cs, h => flatAll_flattenAll cs fun n hn => (flatAll_iff.mp h n hn).2

/-- Flat nodes with their fragments dissolved. -/
theorem flatAll_flattenAll : (ns : List Node) → (∀ n ∈ ns, n.Flat) → FlatAll (flattenAll ns)
  | [], _ => trivial
  | n :: ns, h => by
    obtain ⟨hn, hns⟩ := List.forall_mem_cons.mp h
    exact flatAll_append.mpr ⟨hn.flatten, flatAll_flattenAll ns hns⟩

end

theorem flat_ofList (h : ∀ n ∈ ns, n.Flat) : (ofList ns).Flat := flatAll_flattenAll ns h

/-! ### Changes of the children -/

/-- Whether a node can have children. -/
def isParent : Node → Bool
  | element .. => true
  | fragment _ => true
  | _ => false

theorem kind_withChildren (cs : List Node) (n : Node) : (n.withChildren cs).kind = n.kind := by
  cases n <;> rfl

theorem Flat.withChildren (h : n.Flat) (hcs : FlatAll cs) : (n.withChildren cs).Flat := by
  cases n with
  | element name attrs _ => exact ⟨h.1, hcs⟩
  | fragment _ => exact hcs
  | _ => trivial

theorem children_withChildren (h : n.isParent = true) (cs : List Node) :
    (n.withChildren cs).children = cs := by
  cases n with
  | element | fragment => rfl
  | _ => cases h

theorem withChildren_children (n : Node) : n.withChildren n.children = n := by
  cases n <;> rfl

/-- A node that can have children takes what another node amounts to behind them. -/
theorem appendInPlace_eq (p c : Node) :
    p.appendInPlace c =
      if p.isParent = true then (.ok (), p.withChildren (p.children ++ c.flatten))
      else (.error (.childless p.kind), p) := by
  cases p <;> rfl

/-- A node that can have children gives one of them away, if there are so many. -/
theorem removeInPlace_eq (p : Node) (index : Nat) :
    p.removeInPlace index =
      if p.isParent = true then
        match p.children[index]? with
        | some c => (.ok c, p.withChildren (p.children.eraseIdx index))
        | none => (.error (.notAChild index p.children.length), p)
      else (.error (.childless p.kind), p) := by
  cases p with
  | element name attrs cs | fragment cs =>
    simp only [removeInPlace, extract, isParent, if_true, children]
    cases cs[index]? <;> rfl
  | _ => rfl

theorem appendInPlace_of_error {p c : Node} {error : EditError}
    (h : (p.appendInPlace c).1 = .error error) : (p.appendInPlace c).2 = p := by
  rw [appendInPlace_eq] at h ⊢
  split at h
  · cases h
  · rename_i hp
    rw [if_neg hp]

theorem removeInPlace_of_error {p : Node} {index : Nat} {error : EditError}
    (h : (p.removeInPlace index).1 = .error error) : (p.removeInPlace index).2 = p := by
  rw [removeInPlace_eq] at h ⊢
  split at h
  · rename_i hp
    rw [if_pos hp]
    split at h
    · cases h
    · rfl
  · rename_i hp
    rw [if_neg hp]

theorem append_eq (p c : Node) :
    p.append c = if p.isParent = true then .ok (p.withChildren (p.children ++ c.flatten))
      else .error (.childless p.kind) := by
  cases p <;> rfl

theorem remove_eq (p : Node) (index : Nat) :
    p.remove index = if p.isParent = true then
        match p.children[index]? with
        | some c => .ok (c, p.withChildren (p.children.eraseIdx index))
        | none => .error (.notAChild index p.children.length)
      else .error (.childless p.kind) := by
  rw [remove, removeInPlace_eq]
  cases p.isParent with
  | true => cases p.children[index]? <;> rfl
  | false => rfl

/-- The node after an append is flat. -/
theorem Flat.appendInPlace (hp : p.Flat) (hc : c.Flat) : (p.appendInPlace c).2.Flat := by
  rw [appendInPlace_eq]
  split
  · exact hp.withChildren (flatAll_append.mpr ⟨hp.children, hc.flatten⟩)
  · exact hp

/-- The node after a removal is flat. -/
theorem Flat.removeInPlace (hp : p.Flat) (index : Nat) : (p.removeInPlace index).2.Flat := by
  have hall := flatAll_iff.mp hp.children
  rw [removeInPlace_eq]
  split
  · split
    · exact hp.withChildren (flatAll_iff.mpr fun m hm => hall m (List.mem_of_mem_eraseIdx hm))
    · exact hp
  · exact hp

/-- A removed child is flat. -/
theorem Flat.remove {p' : Node} {index : Nat} (hp : p.Flat) (h : p.remove index = .ok (c, p')) :
    c.Flat := by
  rw [remove_eq] at h
  split at h
  · split at h
    · rename_i d hd
      cases h
      exact (flatAll_iff.mp hp.children c (List.mem_of_getElem? hd)).2
    · cases h
  · cases h

theorem Flat.setAttr? {n' : Node} {name value : String} (hn : n.Flat)
    (h : n.setAttr? name value = some n') : n'.Flat := by
  cases n with
  | element tag attrs cs =>
    cases h
    exact ⟨KeyedList.nodup_keys_put hn.1 name value, hn.2⟩
  | _ => cases h

end Node

/-! ### Changes in place -/

/-- A change of one node. -/
inductive Edit where
  | append (child : Node)
  | remove (index : Nat)
  | setAttr (name value : String)

/-- Changes a node in its place. It is returned also if the change fails, as it is then. Nothing
is set on a node without attributes. -/
def Edit.perform : Edit → Node → Except EditError Unit × Node
  | append child, n => n.appendInPlace child
  | remove index, n => (n.removeInPlace index).map (Except.map fun _ => ()) id
  | setAttr name value, n => (.ok (), (n.setAttr? name value).getD n)

/-- The node that a change adds to another one. -/
def Edit.child? : Edit → Option Node
  | append child => some child
  | _ => none

namespace Node

variable {root n : Node} {path : List Nat} {e : Edit}

/-- The tree after a change of the node at a path, whether or not the change fails. -/
def editAt (path : List Nat) (e : Edit) (root : Node) : Node :=
  match root.at? path with
  | some n => root.replaceAt path (e.perform n).2
  | none => root

/-- A change that fails leaves the node as it is. -/
theorem perform_of_error {error : EditError} (h : (e.perform n).1 = .error error) :
    (e.perform n).2 = n := by
  cases e with
  | append c => exact appendInPlace_of_error h
  | remove index => exact removeInPlace_of_error (Except.eq_error_of_map h)
  | setAttr => cases h

theorem replaceAt_at? {path : List Nat} {root n : Node} (h : root.at? path = some n) :
    root.replaceAt path n = root := by
  induction path generalizing root with
  | nil => exact (Option.some.inj h).symm
  | cons i path ih =>
    obtain ⟨c, hc, h⟩ := Option.bind_eq_some_iff.mp h
    have hself : root.children.modify i (fun child => child.replaceAt path n) = root.children := by
      refine List.ext_getElem? fun j => ?_
      rw [List.getElem?_modify]
      by_cases hj : i = j
      · subst hj
        simp [hc, ih h]
      · simp [hj]
    rw [replaceAt, hself, withChildren_children]

/-- A change that fails leaves the tree as it is. -/
theorem editAt_of_error {error : EditError} (hn : root.at? path = some n)
    (h : (e.perform n).1 = .error error) : root.editAt path e = root := by
  rw [editAt, hn]
  dsimp only
  rw [perform_of_error h, replaceAt_at? hn]

theorem kind_replaceAt {new : Node} (h : root.at? path = some n) (hk : new.kind = n.kind) :
    (root.replaceAt path new).kind = root.kind := by
  cases path with
  | nil =>
    cases h
    exact hk
  | cons i path => exact kind_withChildren _ root

/-- A flat tree has flat nodes at all its paths. -/
theorem Flat.at? {path : List Nat} {root n : Node} (hroot : root.Flat)
    (h : root.at? path = some n) : n.Flat := by
  induction path generalizing root with
  | nil =>
    cases h
    exact hroot
  | cons i path ih =>
    obtain ⟨c, hc, h⟩ := Option.bind_eq_some_iff.mp h
    exact ih (flatAll_iff.mp hroot.children c (List.mem_of_getElem? hc)).2 h

/-- A flat tree stays flat if one of its nodes is replaced by a flat node of the same kind. -/
theorem Flat.replaceAt {path : List Nat} {root n new : Node} (hroot : root.Flat)
    (h : root.at? path = some n) (hnew : new.Flat) (hk : new.kind = n.kind) :
    (root.replaceAt path new).Flat := by
  induction path generalizing root with
  | nil => exact hnew
  | cons i path ih =>
    obtain ⟨c, hc, h⟩ := Option.bind_eq_some_iff.mp h
    have hall := flatAll_iff.mp hroot.children
    refine hroot.withChildren (flatAll_iff.mpr fun m hm => ?_)
    obtain ⟨j, hj⟩ := List.mem_iff_getElem?.mp hm
    rw [List.getElem?_modify] at hj
    by_cases hij : i = j
    · subst hij
      simp only [hc, if_true, Option.map_eq_map, Option.map_some, Option.some.injEq] at hj
      subst hj
      obtain ⟨hkind, hflat⟩ := hall c (List.mem_of_getElem? hc)
      exact ⟨(kind_replaceAt h hk).symm ▸ hkind, ih hflat h⟩
    · simp only [hij, if_false, Option.map_eq_map, Option.map_id'] at hj
      exact hall m (List.mem_of_getElem? hj)

/-- Changes keep the kind of a node. -/
theorem kind_perform (e : Edit) (n : Node) : (e.perform n).2.kind = n.kind := by
  cases e with
  | append c =>
    rw [Edit.perform, appendInPlace_eq]
    split
    · exact kind_withChildren _ n
    · rfl
  | remove index =>
    rw [Edit.perform, removeInPlace_eq]
    split
    · split
      · exact kind_withChildren _ n
      · rfl
    · rfl
  | setAttr name value => cases n <;> rfl

theorem Flat.perform (hn : n.Flat) (hc : ∀ c, e.child? = some c → c.Flat) :
    (e.perform n).2.Flat := by
  cases e with
  | append c => exact hn.appendInPlace (hc c rfl)
  | remove index => exact hn.removeInPlace index
  | setAttr name value =>
    rw [Edit.perform]
    cases hset : n.setAttr? name value with
    | none => exact hn
    | some n' => exact hn.setAttr? hset

/-- Flat trees stay flat when one of their nodes is changed. -/
theorem Flat.editAt (hroot : root.Flat) (path : List Nat) (hc : ∀ c, e.child? = some c → c.Flat) :
    (root.editAt path e).Flat := by
  rw [Node.editAt]
  split
  · rename_i n hn
    exact hroot.replaceAt hn ((hroot.at? hn).perform hc) (kind_perform e n)
  · exact hroot

end Node

end MarkupTemplate.Dom
