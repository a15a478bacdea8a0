import MarkupTemplate.KeyedList
import Mathlib.Data.List.Forall2

/-!
# Keyed lists as finite maps

What is read under a key is in the list, and taking away other keys does not change it. Writing
and filtering by key keep the keys distinct. Two keyed lists are related if they have the same
keys in the same order and related values under them, which writing and erasing keep as well.

## Main definitions

* `MarkupTemplate.KeyedList.Related` — the same keys, and related values under them.

## Main results

* `MarkupTemplate.KeyedList.get?_filter` — entries under other keys do not matter for reading.
* `MarkupTemplate.KeyedList.ofPairs_of_nodup` — distinct keys are written in a row.
* `MarkupTemplate.KeyedList.ofPairs_map_snd` — writing commutes with a change of the values.
* `MarkupTemplate.KeyedList.mem_of_mem_ofPairs`, `MarkupTemplate.KeyedList.nodup_keys_ofPairs`
* `MarkupTemplate.KeyedList.Related.put`, `MarkupTemplate.KeyedList.Related.erase`,
  `MarkupTemplate.KeyedList.Related.get?`.
-/

namespace MarkupTemplate.KeyedList

variable {κ α β : Type}

section

variable [DecidableEq κ]

/-! ### Reading and writing -/

theorem mem_of_get? {k : κ} {a : α} {l : KeyedList κ α} (h : get? k l = some a) : (k, a) ∈ l := by
  induction l with
  | nil => cases h
  | cons p l ih =>
    rw [get?] at h
    split at h
    · rename_i hk
      cases h
      exact hk ▸ List.mem_cons_self
    · exact List.mem_cons_of_mem p (ih h)

/-- Entries under other keys do not matter for reading. -/
theorem get?_filter {q : κ → Bool} {k : κ} (hk : q k = true) (l : KeyedList κ α) :
    get? k (l.filter fun p => q p.1) = get? k l := by
  induction l with
  | nil => rfl
  | cons p l ih =>
    by_cases h : p.1 = k
    · have hq : q p.1 = true := h ▸ hk
      rw [List.filter_cons, if_pos hq, get?, get?, if_pos h, if_pos h]
    · rw [get?, if_neg h, ← ih, List.filter_cons]
      split
      · rw [get?, if_neg h]
      · rfl

theorem mem_put {k : κ} {a : α} {p : κ × α} {l : KeyedList κ α} (h : p ∈ put k a l) :
    p = (k, a) ∨ p ∈ l := by
  induction l with
  | nil => exact Or.inl (List.mem_singleton.mp h)
  | cons q l ih =>
    rw [put] at h
    split at h
    · rename_i hq
      rcases List.mem_cons.mp h with rfl | h
      · exact Or.inl (by rw [hq])
      · exact Or.inr (List.mem_cons_of_mem q h)
    · rcases List.mem_cons.mp h with rfl | h
      · exact Or.inr List.mem_cons_self
      · exact (ih h).imp_right (List.mem_cons_of_mem q)

theorem put_of_not_mem {k : κ} {l : KeyedList κ α} (h : k ∉ l.keys) (a : α) :
    put k a l = l ++ [(k, a)] := by
  induction l with
  | nil => rfl
  | cons p l ih =>
    rw [keys, List.map_cons, List.mem_cons, not_or] at h
    rw [put, if_neg (Ne.symm h.1), ih h.2]
    rfl

/-- Pairs with distinct keys are a dictionary as they stand. -/
theorem ofPairs_of_nodup {l : List (κ × α)} (h : (l.map Prod.fst).Nodup) : ofPairs l = l := by
  have hfold (d : KeyedList κ α) (hd : ((d ++ l).map Prod.fst).Nodup) :
      l.foldl (fun d p => put p.1 p.2 d) d = d ++ l := by
    clear h
    induction l generalizing d with
    | nil => exact (List.append_nil d).symm
    | cons p l ih =>
      have hk : p.1 ∉ d.keys := by
        rw [List.map_append] at hd
        intro hm
        exact (List.nodup_append.mp hd).2.2 p.1 hm p.1 List.mem_cons_self rfl
      rw [List.foldl_cons, put_of_not_mem hk, ih, List.append_assoc, List.singleton_append]
      rwa [List.append_assoc, List.singleton_append]
  exact hfold [] h

/-- Changing all values commutes with writing one. -/
theorem put_map_snd (f : α → β) (k : κ) (a : α) (l : KeyedList κ α) :
    put k (f a) (l.map fun p => (p.1, f p.2)) = (put k a l).map fun p => (p.1, f p.2) := by
  induction l with
  | nil => rfl
  | cons p l ih =>
    rw [List.map_cons, put, put, ih]
    split <;> rfl

/-- Changing all values commutes with writing pairs in a row. -/
theorem ofPairs_map_snd (f : α → β) (l : List (κ × α)) :
    ofPairs (l.map fun p => (p.1, f p.2)) = (ofPairs l).map fun p => (p.1, f p.2) := by
  have hfold (d : KeyedList κ α) :
      (l.map fun p => (p.1, f p.2)).foldl (fun d p => put p.1 p.2 d)
          (d.map fun p => (p.1, f p.2)) =
        (l.foldl (fun d p => put p.1 p.2 d) d).map fun p => (p.1, f p.2) := by
    induction l generalizing d with
    | nil => rfl
    | cons p l ih => rw [List.map_cons, List.foldl_cons, List.foldl_cons, ← ih, put_map_snd f]
  exact hfold []

theorem nodup_keys_put {l : KeyedList κ α} (hl : l.keys.Nodup) (k : κ) (a : α) :
    (put k a l).keys.Nodup := by
  rw [keys_put]
  split
  · exact hl
  · rename_i hk
    exact List.nodup_append.mpr ⟨hl, List.pairwise_singleton _ k, by
      rintro x hx y hy rfl
      exact hk (List.mem_singleton.mp hy ▸ hx)⟩

/-! ### Writing pairs in a row -/

theorem mem_of_mem_ofPairs {l : List (κ × α)} {p : κ × α} (h : p ∈ ofPairs l) : p ∈ l := by
  have hall : ∀ p ∈ ofPairs l, p ∈ l :=
    List.foldlRecOn (motive := fun d => ∀ p ∈ d, p ∈ l) l _ nofun fun d hd q hq p hp =>
      (mem_put hp).elim (fun he => he ▸ hq) (hd p)
  exact hall p h

theorem nodup_keys_ofPairs (l : List (κ × α)) : (ofPairs l).keys.Nodup :=
  List.foldlRecOn (motive := fun d => (keys d).Nodup) l _ List.nodup_nil fun _ hd q _ =>
    nodup_keys_put hd q.1 q.2

end

theorem nodup_keys_filter {l : KeyedList κ α} (hl : l.keys.Nodup) (q : κ × α → Bool) :
    (keys (l.filter q)).Nodup :=
  hl.sublist (List.filter_sublist.map Prod.fst)

/-! ### Related lists -/

/-- The same keys in the same order, and related values under them. -/
def Related (r : α → β → Prop) : KeyedList κ α → KeyedList κ β → Prop :=
  List.Forall₂ fun p q => p.1 = q.1 ∧ r p.2 q.2

namespace Related

variable {r : α → β → Prop} {l : KeyedList κ α} {m : KeyedList κ β}

theorem mono {s : α → β → Prop} (h : Related r l m) (hs : ∀ a b, r a b → s a b) :
    Related s l m := List.Forall₂.imp (fun _ _ h => ⟨h.1, hs _ _ h.2⟩) h

theorem put [DecidableEq κ] (h : Related r l m) (k : κ) {a : α} {b : β} (hab : r a b) :
    Related r (l.put k a) (m.put k b) := by
  induction h with
  | nil => exact .cons ⟨rfl, hab⟩ .nil
  | @cons p q l m hp hl ih =>
    rw [KeyedList.put, KeyedList.put, hp.1]
    split
    · exact .cons ⟨rfl, hab⟩ hl
    · exact .cons ⟨rfl, hp.2⟩ ih

theorem erase [DecidableEq κ] (h : Related r l m) (k : κ) : Related r (l.erase k) (m.erase k) := by
  induction h with
  | nil => exact .nil
  | @cons p q l m hp hl ih =>
    rw [KeyedList.erase, KeyedList.erase, List.filter_cons, List.filter_cons, hp.1]
    split
    · exact .cons hp ih
    · exact ih

theorem get? [DecidableEq κ] (h : Related r l m) {k : κ} {a : α} (ha : l.get? k = some a) :
    ∃ b, m.get? k = some b ∧ r a b := by
  induction h with
  | nil => cases ha
  | @cons p q l m hp hl ih =>
    rw [KeyedList.get?] at ha ⊢
    rw [hp.1] at ha
    split at ha
    · rename_i hq
      cases ha
      exact ⟨q.2, if_pos hq, hp.2⟩
    · rename_i hq
      rw [if_neg hq]
      exact ih ha

/-- A value on the right stands under the key of a value on the left. -/
theorem exists_of_mem (h : Related r l m) {q : κ × β} (hq : q ∈ m) :
    ∃ p ∈ l, p.1 = q.1 ∧ r p.2 q.2 := by
  induction h with
  | nil => cases hq
  | @cons p' q' l m hp hl ih =>
    rcases List.mem_cons.mp hq with rfl | hq
    · exact ⟨p', List.mem_cons_self, hp⟩
    · obtain ⟨p, hpl, hpq⟩ := ih hq
      exact ⟨p, List.mem_cons_of_mem p' hpl, hpq⟩

/-- A value on the left stands under the key of a value on the right. -/
theorem exists_of_mem_left (h : Related r l m) {p : κ × α} (hp : p ∈ l) :
    ∃ q ∈ m, p.1 = q.1 ∧ r p.2 q.2 := by
  obtain ⟨q, hq, h₁, h₂⟩ := exists_of_mem (r := fun b a => r a b)
    (List.Forall₂.flip (List.Forall₂.imp (fun _ _ h => ⟨h.1.symm, h.2⟩) h)) hp
  exact ⟨q, hq, h₁.symm, h₂⟩

end Related

end MarkupTemplate.KeyedList
