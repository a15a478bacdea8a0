/-!
# Measuring and splitting texts

Texts are lists of characters while they are being read. Positions in messages count the bytes of
the UTF-8 encoding.

## Main definitions

* `MarkupTemplate.Text.utf8Length` — the number of bytes of a text.
* `MarkupTemplate.Text.dropPrefix?` — what follows a given beginning.
* `MarkupTemplate.Text.after?` — what follows the first occurrence of a text.
* `MarkupTemplate.Text.breakOn?` — what stands before and after the first occurrence of a text.
* `MarkupTemplate.Text.afterFirst`, `MarkupTemplate.Text.afterLast` — what follows the first or
  the last occurrence of a character.
-/

namespace MarkupTemplate.Text

/-- The number of bytes of a text in UTF-8. -/
def utf8Length : List Char → Nat
  | [] => 0
  | c :: cs => c.utf8Size + utf8Length cs

/-- What follows `start` in a text that begins with it. -/
def dropPrefix? : (start : List Char) → List Char → Option (List Char)
  | [], cs => some cs
  | _ :: _, [] => none
  | p :: ps, c :: cs => if p = c then dropPrefix? ps cs else none

/-- The texts before and after the first occurrence of `mark`. -/
def breakOn? (mark : List Char) : List Char → Option (List Char × List Char)
  | [] => (dropPrefix? mark []).map fun rest => ([], rest)
  | c :: cs =>
    match dropPrefix? mark (c :: cs) with
    | some rest => some ([], rest)
    | none => (breakOn? mark cs).map fun (before, rest) => (c :: before, rest)

/-- What follows the first occurrence of `mark`. -/
def after? (mark cs : List Char) : Option (List Char) := (breakOn? mark cs).map Prod.snd

/-- What follows the first occurrence of `mark`, or the whole text if there is none. -/
def afterFirst (mark : Char) (cs : List Char) : List Char :=
  match cs.dropWhile (· != mark) with
  | [] => cs
  | _ :: rest => rest

/-- What follows the last occurrence of `mark`, or the whole text if there is none. -/
def afterLast (mark : Char) (cs : List Char) : List Char :=
  (cs.reverse.takeWhile (· != mark)).reverse

theorem length_dropWhile_le (p : Char → Bool) (cs : List Char) :
    (cs.dropWhile p).length ≤ cs.length :=
  (List.dropWhile_sublist p).length_le

theorem dropPrefix?_eq_some_iff {start cs rest : List Char} :
    dropPrefix? start cs = some rest ↔ cs = start ++ rest := by
  induction start generalizing cs with
  | nil => simp [dropPrefix?]
  | cons p ps ih =>
    cases cs with
    | nil => simp [dropPrefix?]
    | cons c cs =>
      by_cases h : p = c
      · subst h; simp [dropPrefix?, ih]
      · simpa [dropPrefix?, h] using fun e => absurd e.symm h

/-- Breaking a text loses nothing. -/
theorem eq_of_breakOn?_eq_some {mark cs before rest : List Char}
    (h : breakOn? mark cs = some (before, rest)) : cs = before ++ mark ++ rest := by
  induction cs generalizing before with
  | nil =>
    obtain ⟨r, hr, he⟩ := Option.map_eq_some_iff.mp h
    obtain ⟨rfl, rfl⟩ := Prod.mk.inj he
    simpa using dropPrefix?_eq_some_iff.mp hr
  | cons c cs ih =>
    rw [breakOn?] at h
    split at h
    · rename_i r hr
      obtain ⟨rfl, rfl⟩ := Prod.mk.inj (Option.some.inj h)
      simpa using dropPrefix?_eq_some_iff.mp hr
    · obtain ⟨⟨b, r⟩, hb, he⟩ := Option.map_eq_some_iff.mp h
      obtain ⟨rfl, rfl⟩ := Prod.mk.inj he
      simp [ih hb]

theorem length_le_of_dropPrefix? {start cs rest : List Char}
    (h : dropPrefix? start cs = some rest) : rest.length ≤ cs.length := by
  simp [dropPrefix?_eq_some_iff.mp h]

theorem length_le_of_after? {mark cs rest : List Char} (h : after? mark cs = some rest) :
    rest.length ≤ cs.length := by
  obtain ⟨⟨before, r⟩, hb, rfl⟩ := Option.map_eq_some_iff.mp h
  simp only [eq_of_breakOn?_eq_some hb, List.length_append]
  omega

end MarkupTemplate.Text
