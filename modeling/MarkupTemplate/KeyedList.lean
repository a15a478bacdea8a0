/-!
# Keyed lists

A `KeyedList` is a list of pairs read as a dictionary in insertion order. Writing a key that is
present replaces its value where it stands, and a new key goes to the end, so the keys keep the
order in which they first came. A list that holds a key twice is read at the first of the two.

## Main definitions

* `MarkupTemplate.KeyedList.get?`, `MarkupTemplate.KeyedList.put` — reading and writing a key.
* `MarkupTemplate.KeyedList.ofPairs` — the dictionary that a list of writes leaves.
-/

namespace MarkupTemplate

/-- Pairs of a key and a value, in the order in which the keys were first written. -/
abbrev KeyedList (κ α : Type) := List (κ × α)

namespace KeyedList

variable {κ α : Type} [DecidableEq κ]

/-- The value of the first pair with the key `k`. -/
def get? (k : κ) : KeyedList κ α → Option α
  | [] => none
  | (k', a) :: l => if k' = k then some a else get? k l

/-- Replaces the value of the first pair with the key `k`, or adds a pair at the end. -/
def put (k : κ) (a : α) : KeyedList κ α → KeyedList κ α
  | [] => [(k, a)]
  | (k', a') :: l => if k' = k then (k', a) :: l else (k', a') :: put k a l

/-- The keys in order. -/
def keys (l : KeyedList κ α) : List κ := l.map Prod.fst

/-- Takes every pair with the key `k` away. -/
def erase (k : κ) (l : KeyedList κ α) : KeyedList κ α := l.filter fun p => p.1 != k

/-- The dictionary that results from writing the pairs of `l` one after the other. -/
def ofPairs (l : List (κ × α)) : KeyedList κ α := l.foldl (fun d p => put p.1 p.2 d) []

@[simp] theorem get?_nil (k : κ) : get? k ([] : KeyedList κ α) = none := rfl

theorem get?_put_self (k : κ) (a : α) (l : KeyedList κ α) : get? k (put k a l) = some a := by
  induction l with
  | nil => simp [put, get?]
  | cons p l ih =>
    by_cases h : p.1 = k
    · simp [put, get?, h]
    · simp [put, get?, h, ih]

theorem get?_put_of_ne {k k' : κ} (h : k ≠ k') (a : α) (l : KeyedList κ α) :
    get? k' (put k a l) = get? k' l := by
  induction l with
  | nil => simp [put, get?, h]
  | cons p l ih =>
    by_cases hp : p.1 = k
    · subst hp; simp [put, get?, h]
    · by_cases hp' : p.1 = k'
      · subst hp'; simp [put, get?, hp]
      · simp [put, get?, hp, hp', ih]

/-- Writing keeps the keys, and adds the written one at the end if it is new. -/
theorem keys_put (k : κ) (a : α) (l : KeyedList κ α) :
    keys (put k a l) = if k ∈ keys l then keys l else keys l ++ [k] := by
  induction l with
  | nil => simp [put, keys]
  | cons p l ih =>
    by_cases h : p.1 = k
    · simp [put, keys, h]
    · have h' : ¬ k = p.1 := fun e => h e.symm
      simp only [keys] at ih
      by_cases hk : k ∈ l.map Prod.fst
      · simp only [hk, if_true] at ih
        simp [put, keys, h, h', ih, hk]
      · simp only [hk, if_false] at ih
        simp [put, keys, h, h', ih, hk]

end KeyedList

end MarkupTemplate
