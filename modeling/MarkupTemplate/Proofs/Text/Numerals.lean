import MarkupTemplate.Text.Numeral

/-!
# What numerals are read as

Reading takes the digits of a number from left to right and stops at the first that spoils it. It
succeeds exactly if all characters are digits and their number, as positional notation has it, stays
below the bound.

## Main definitions

* `MarkupTemplate.Text.Numeral.digitValue` — the value of a digit.
* `MarkupTemplate.Text.Numeral.number` — the number that digits stand for in a radix.

## Main results

* `MarkupTemplate.Text.Numeral.isSome_digit?_ten_iff`,
  `MarkupTemplate.Text.Numeral.isSome_digit?_sixteen_iff` — the digits of the two radices.
* `MarkupTemplate.Text.Numeral.read_eq_ok_iff` — reading in any radix.
-/

namespace MarkupTemplate.Text.Numeral

/-! ### Digits -/

/-- The digits of decimal numbers. -/
def decimalDigits : List Char := "0123456789".toList

/-- The digits of hexadecimal numbers. -/
def hexadecimalDigits : List Char := "0123456789abcdefABCDEF".toList

/-- The value of a digit. The letters, large or small, go on from nine. -/
def digitValue (c : Char) : Nat :=
  if c.toNat ≤ '9'.toNat then c.toNat - '0'.toNat
  else if c.toNat ≤ 'F'.toNat then c.toNat - 'A'.toNat + 10
  else c.toNat - 'a'.toNat + 10

/-- The number of digits in a radix that stand behind the digits of another number. -/
def numberFrom (radix : Nat) (acc : Nat) (ds : List Char) : Nat :=
  ds.foldl (fun n d => n * radix + digitValue d) acc

/-- The number that digits stand for in a radix. -/
def number (radix : Nat) (ds : List Char) : Nat := numberFrom radix 0 ds

theorem digit?_eq_some {radix d : Nat} {c : Char} (h : digit? radix c = some d) :
    d = digitValue c ∧ c.toNat ≤ 'f'.toNat := by
  have hnine : '9'.toNat = 57 := rfl
  have hzero : '0'.toNat = 48 := rfl
  have hF : 'F'.toNat = 70 := rfl
  have hA : 'A'.toNat = 65 := rfl
  have hf : 'f'.toNat = 102 := rfl
  have ha : 'a'.toNat = 97 := rfl
  rw [digit?, Option.ite_none_right_eq_some, Option.some.injEq] at h
  obtain ⟨hlt, rfl⟩ := h
  rw [digitValue]
  split at hlt
  · grind
  split at hlt
  · grind
  split at hlt
  · grind
  · exact absurd hlt (Nat.lt_irrefl radix)

/-- Which characters are digits is known from the characters up to the last letter. -/
theorem isSome_digit?_iff {radix : Nat} {digits : List Char}
    (h : ∀ n < 103, (digit? radix (Char.ofNat n)).isSome = true ↔ Char.ofNat n ∈ digits)
    (hd : digits.all (·.toNat < 103) = true) (c : Char) :
    (digit? radix c).isSome = true ↔ c ∈ digits := by
  by_cases hc : c.toNat < 103
  · rw [← Char.ofNat_toNat c]
    exact h c.toNat hc
  · refine iff_of_false (fun hs => ?_) fun hm =>
      hc (of_decide_eq_true (List.all_eq_true.mp hd c hm))
    obtain ⟨d, hdigit⟩ := Option.isSome_iff_exists.mp hs
    exact hc (Nat.lt_succ_of_le (digit?_eq_some hdigit).2)

theorem isSome_digit?_ten_iff (c : Char) :
    (digit? 10 c).isSome = true ↔ c ∈ decimalDigits :=
  isSome_digit?_iff (by decide) (by decide) c

theorem isSome_digit?_sixteen_iff (c : Char) :
    (digit? 16 c).isSome = true ↔ c ∈ hexadecimalDigits :=
  isSome_digit?_iff (by decide) (by decide) c

/-! ### Numbers -/

theorem numberFrom_cons (radix acc : Nat) (d : Char) (ds : List Char) :
    numberFrom radix acc (d :: ds) = numberFrom radix (acc * radix + digitValue d) ds := rfl

/-- More digits make no number smaller. -/
theorem le_numberFrom {radix : Nat} (hr : 0 < radix) (acc : Nat) (ds : List Char) :
    acc ≤ numberFrom radix acc ds := by
  induction ds generalizing acc with
  | nil => exact Nat.le_refl acc
  | cons d ds ih =>
    calc acc ≤ acc * radix := Nat.le_mul_of_pos_right acc hr
      _ ≤ acc * radix + digitValue d := Nat.le_add_right _ _
      _ ≤ numberFrom radix acc (d :: ds) := ih _

/-- Digits are read as their number, as long as it stays below the bound. -/
theorem readFrom_eq_ok_iff {radix bound acc n : Nat} (hr : 0 < radix) (hacc : acc < bound)
    {ds : List Char} :
    readFrom radix bound acc ds = .ok n ↔
      (∀ d ∈ ds, (digit? radix d).isSome = true) ∧ numberFrom radix acc ds = n ∧ n < bound := by
  induction ds generalizing acc with
  | nil =>
    rw [readFrom, Except.ok.injEq]
    exact ⟨fun h => ⟨nofun, h, h ▸ hacc⟩, fun h => h.2.1⟩
  | cons c ds ih =>
    rw [readFrom, List.forall_mem_cons]
    cases hc : digit? radix c with
    | none => exact iff_of_false nofun fun h => nomatch h.1.1
    | some d =>
      obtain rfl : d = digitValue c := (digit?_eq_some hc).1
      rw [Option.isSome_some, numberFrom_cons]
      dsimp only
      by_cases hlt : acc * radix + digitValue c < bound
      · rw [if_pos hlt, ih hlt]
        exact and_congr_left' (and_iff_right rfl).symm
      · have hle := le_numberFrom hr (acc * radix + digitValue c) ds
        rw [if_neg hlt]
        exact iff_of_false nofun fun ⟨_, hn, hb⟩ => hlt (by omega)

theorem read_eq_ok_iff {radix bound n : Nat} (hr : 0 < radix) (hb : 0 < bound)
    {ds : List Char} :
    read radix bound ds = .ok n ↔
      ds ≠ [] ∧ (∀ d ∈ ds, (digit? radix d).isSome = true) ∧ number radix ds = n ∧ n < bound := by
  rw [read]
  cases ds with
  | nil => exact iff_of_false nofun fun h => h.1 rfl
  | cons c ds =>
    rw [List.isEmpty_cons, if_neg Bool.false_ne_true, readFrom_eq_ok_iff hr hb]
    exact (and_iff_right (List.cons_ne_nil c ds)).symm

end MarkupTemplate.Text.Numeral
