import MarkupTemplate.Proofs.Text.Blanks
import MarkupTemplate.Proofs.Text.Numerals
import MarkupTemplate.Template.Marker

/-!
# Where markers stand in a text

A marker is read exactly where one is written (`MarkupTemplate.marker?_eq_some_iff`), and what
stands before it does not matter: brackets and pieces of markers that come before a marker cannot
take a character from it. So a text is decoded by splitting off literals without markers and
markers from the left.

## Main definitions

* `MarkupTemplate.IsMarker` — a marker with its number, which may have leading zeros.
* `MarkupTemplate.MarkerFree` — texts in which nothing is decoded.
* `MarkupTemplate.withLiteral` — a literal in front of segments.

## Main results

* `MarkupTemplate.Text.Numeral.read_ten_eq_ok_iff` — reading decimal digits.
* `MarkupTemplate.marker?_eq_some_iff`
* `MarkupTemplate.decodeMarkers_append`, `MarkupTemplate.decodeMarkers_of_isMarker`
-/

namespace MarkupTemplate

open Text

/-! ### Decimal digits -/

theorem isDigit_iff (c : Char) : isDigit c = true ↔ 48 ≤ c.toNat ∧ c.toNat ≤ 57 := by
  simp [isDigit, Char.le_def, UInt32.le_iff_toNat_le]

theorem isDigit_of_mem_toDigits {n : Nat} {c : Char} (h : c ∈ Nat.toDigits 10 n) :
    isDigit c = true := by
  have hc := Nat.isDigit_of_mem_toDigits (by decide) (by decide) h
  rw [isDigit_iff]
  simpa [Char.isDigit, UInt32.le_iff_toNat_le] using hc

namespace Text.Numeral

theorem digit?_ten (c : Char) :
    digit? 10 c = if isDigit c then some (c.toNat - 48) else none := by
  rw [digit?]
  by_cases h : isDigit c = true
  · have hc := (isDigit_iff c).mp h
    have hlt : c.toNat - 48 < 10 := by omega
    rw [if_pos hc, if_pos h, if_pos hlt]
  · have hc : ¬ (48 ≤ c.toNat ∧ c.toNat ≤ 57) := fun hc => h ((isDigit_iff c).mpr hc)
    rw [if_neg hc, if_neg h, if_neg]
    split
    · omega
    · split <;> omega

theorem digitValue_of_isDigit {c : Char} (h : isDigit c = true) :
    digitValue c = c.toNat - '0'.toNat :=
  if_pos ((isDigit_iff c).mp h).2

/-- The number of decimal digits is the one that the standard library reads. -/
theorem numberFrom_ten {ds : List Char} (h : ∀ d ∈ ds, isDigit d = true) (acc : Nat) :
    numberFrom 10 acc ds = Nat.ofDigitChars 10 ds acc := by
  induction ds generalizing acc with
  | nil => rfl
  | cons d ds ih =>
    obtain ⟨hd, hds⟩ := List.forall_mem_cons.mp h
    rw [numberFrom_cons, Nat.ofDigitChars_cons, ih hds, digitValue_of_isDigit hd, Nat.mul_comm]

theorem read_ten_eq_ok_iff {bound n : Nat} {ds : List Char} (hb : 0 < bound) :
    read 10 bound ds = .ok n ↔
      ds ≠ [] ∧ (∀ d ∈ ds, isDigit d = true) ∧ Nat.ofDigitChars 10 ds 0 = n ∧ n < bound := by
  have hdigit (d : Char) : (digit? 10 d).isSome = true ↔ isDigit d = true := by
    rw [digit?_ten]
    split <;> simp [*]
  rw [read_eq_ok_iff (by decide) hb]
  simp only [hdigit]
  refine and_congr_right fun _ => and_congr_right fun hd => ?_
  rw [number, numberFrom_ten hd]

end Text.Numeral

/-! ### Markers -/

/-- A text that is a marker, with the number that its digits name. -/
def IsMarker (n : Nat) (m : List Char) : Prop :=
  ∃ ds, Numeral.read 10 Numeral.word64 ds = .ok n ∧ m = ['[', '[', '['] ++ ds ++ [']', ']', ']']

/-- The digits of a marker are there, and they are digits. -/
theorem digits_of_read {n : Nat} {ds : List Char}
    (h : Numeral.read 10 Numeral.word64 ds = .ok n) : ds ≠ [] ∧ ∀ d ∈ ds, isDigit d = true := by
  have hd := (Numeral.read_ten_eq_ok_iff (by decide)).mp h
  exact ⟨hd.1, hd.2.1⟩

/-- Brackets and digits are the characters of markers. -/
def isMarkerChar (c : Char) : Bool := c == '[' || c == ']' || isDigit c

theorem IsMarker.isMarkerChar {n : Nat} {m : List Char} (h : IsMarker n m) {c : Char}
    (hc : c ∈ m) : isMarkerChar c = true := by
  obtain ⟨ds, hn, rfl⟩ := h
  rcases List.mem_append.mp hc with hc | hc
  · rcases List.mem_append.mp hc with hc | hc
    · obtain rfl : c = '[' := by simpa using hc
      rfl
    · simp [MarkupTemplate.isMarkerChar, (digits_of_read hn).2 c hc]
  · obtain rfl : c = ']' := by simpa using hc
    rfl

theorem isMarker_marker {n : Nat} (h : n < Numeral.word64) : IsMarker n (marker n) := by
  refine ⟨Nat.toDigits 10 n, (Numeral.read_ten_eq_ok_iff (by decide)).mpr ?_, rfl⟩
  exact ⟨Nat.toDigits_ne_nil, fun d hd => isDigit_of_mem_toDigits hd,
    Nat.ofDigitChars_ten_toDigits, h⟩

/-- Reading finds a marker exactly at the start of a text that begins with one. -/
theorem marker?_eq_some_iff {cs rest : List Char} {n : Nat} :
    marker? cs = some (n, rest) ↔ ∃ m, IsMarker n m ∧ cs = m ++ rest := by
  rw [marker?]
  constructor
  · intro h
    split at h
    · cases h
    · rename_i ds hds
      split at h
      · rename_i r k hr hk
        cases h
        refine ⟨_, ⟨_, hk, rfl⟩, ?_⟩
        have hd := dropPrefix?_eq_some_iff.mp hr
        rw [dropPrefix?_eq_some_iff.mp hds, List.append_assoc, List.append_assoc, ← hd,
          List.takeWhile_append_dropWhile]
      · cases h
  · rintro ⟨m, ⟨ds, hn, rfl⟩, rfl⟩
    obtain ⟨_, hd⟩ := digits_of_read hn
    have htake : (ds ++ ([']', ']', ']'] ++ rest)).takeWhile isDigit = ds := by
      rw [List.takeWhile_append_of_pos hd]
      exact List.append_nil ds
    have hdrop : (ds ++ ([']', ']', ']'] ++ rest)).dropWhile isDigit = [']', ']', ']'] ++ rest :=
      List.dropWhile_append_of_pos hd
    rw [List.append_assoc, List.append_assoc, dropPrefix?_eq_some_iff.mpr rfl]
    simp only [htake, hdrop, hn, dropPrefix?_eq_some_iff.mpr rfl]

/-- A text without a marker. -/
def MarkerFree (cs : List Char) : Prop := ∀ n m, IsMarker n m → ¬ m <:+: cs

theorem MarkerFree.of_infix {cs ds : List Char} (h : MarkerFree ds) (hi : cs <:+: ds) :
    MarkerFree cs := fun n m hm hc => h n m hm (hc.trans hi)

theorem markerFree_of_not_mem {cs : List Char} (h : ']' ∉ cs) : MarkerFree cs := by
  rintro n m ⟨ds, _, rfl⟩ hi
  exact h (hi.subset (by simp))

/-! ### Markers and blanks -/

theorem isBlank_of_isDigit {c : Char} (h : isDigit c = true) : isBlank c = false := by
  have hc := (isDigit_iff c).mp h
  simp only [isBlank, Bool.or_eq_false_iff, Bool.and_eq_false_iff, decide_eq_false_iff_not,
    beq_eq_false_iff_ne, ne_eq]
  omega

theorem IsMarker.ne_nil {n : Nat} {m : List Char} (h : IsMarker n m) : m ≠ [] := by
  obtain ⟨ds, _, rfl⟩ := h
  exact List.cons_ne_nil _ _

theorem IsMarker.solid {n : Nat} {m : List Char} (h : IsMarker n m) : Solid m := by
  obtain ⟨ds, hn, rfl⟩ := h
  intro c hc
  rcases List.mem_append.mp hc with hc | hc
  · rcases List.mem_append.mp hc with hc | hc
    · obtain rfl : c = '[' := by simpa using hc
      rfl
    · exact isBlank_of_isDigit ((digits_of_read hn).2 c hc)
  · obtain rfl : c = ']' := by simpa using hc
    rfl

namespace MarkerFree

variable {cs : List Char}

/-- Collapsing blanks makes no marker. -/
theorem collapse (h : MarkerFree cs) : MarkerFree (collapse cs) := fun n m hm hi =>
  h n m hm (infix_of_infix_collapse hm.solid hm.ne_nil hi)

theorem dropWhile (h : MarkerFree cs) : MarkerFree (cs.dropWhile isBlank) :=
  h.of_infix (List.dropWhile_suffix isBlank).isInfix

theorem atEnd_dropWhile (h : MarkerFree cs) : MarkerFree (atEnd (List.dropWhile isBlank) cs) := by
  refine h.of_infix (List.reverse_infix.mp ?_)
  rw [atEnd, List.reverse_reverse]
  exact (List.dropWhile_suffix isBlank).isInfix

theorem collapseStart (h : MarkerFree cs) : MarkerFree (collapseStart cs) := by
  rw [Text.collapseStart]
  split
  · intro n m hm hi
    rcases List.infix_cons_iff.mp hi with hp | hi
    · rcases List.prefix_cons_iff.mp hp with rfl | ⟨m, rfl, _⟩
      · exact hm.ne_nil rfl
      · exact absurd (hm.solid ' ' List.mem_cons_self) (by decide)
    · exact h.dropWhile n m hm hi
  · exact h.dropWhile

theorem atEnd_collapseStart (h : MarkerFree cs) : MarkerFree (atEnd Text.collapseStart cs) := by
  rw [Text.atEnd_collapseStart]
  split
  · intro n m hm hi
    rcases List.infix_concat_iff.mp hi with hs | hi
    · obtain ⟨x, hx⟩ := hs
      rcases List.eq_nil_or_concat m with rfl | ⟨l, c, rfl⟩
      · exact hm.ne_nil rfl
      · rw [List.concat_eq_append, ← List.append_assoc] at hx
        have hc : c = ' ' := (List.append_inj' hx rfl).2 |> List.singleton_inj.mp
        refine absurd (hm.solid c ?_) (by rw [hc]; decide)
        rw [List.concat_eq_append]
        exact List.mem_append_right l List.mem_cons_self
    · exact h.atEnd_dropWhile n m hm hi
  · rw [List.append_nil]
    exact h.atEnd_dropWhile

end MarkerFree

/-! ### Decoding -/

theorem decodeMarkers_nil : decodeMarkers [] = [] := by rw [decodeMarkers]

theorem decodeMarkers_of_isMarker {n : Nat} {m : List Char} (h : IsMarker n m) (rest : List Char) :
    decodeMarkers (m ++ rest) = .reference n :: decodeMarkers rest := by
  have hm : marker? (m ++ rest) = some (n, rest) := marker?_eq_some_iff.mpr ⟨m, h, rfl⟩
  obtain ⟨ds, _, rfl⟩ := h
  rw [List.append_assoc, List.append_assoc, List.cons_append] at hm ⊢
  rw [decodeMarkers]
  split
  · rename_i k r hk
    cases hm.symm.trans hk
    rfl
  · rename_i hk
    cases hm.symm.trans hk

theorem decodeMarkers_cons_of_marker?_eq_none {c : Char} {cs : List Char}
    (h : marker? (c :: cs) = none) :
    decodeMarkers (c :: cs) = consLiteral c (decodeMarkers cs) := by
  rw [decodeMarkers]
  split
  · rename_i hk
    cases h.symm.trans hk
  · rfl

/-- A literal in front of segments, joined with a text that they begin with. -/
def withLiteral (cs : List Char) (segments : List Segment) : List Segment :=
  cs.foldr consLiteral segments

/-- What can follow a literal: nothing, or a marker. -/
def StartsMarker : List Char → Prop
  | [] => True
  | c :: cs => ∃ n m rest, IsMarker n m ∧ c :: cs = m ++ rest

theorem StartsMarker.eq_nil_or_append {cs : List Char} (h : StartsMarker cs) :
    cs = [] ∨ ∃ n m rest, IsMarker n m ∧ cs = m ++ rest := by
  cases cs with
  | nil => exact Or.inl rfl
  | cons c cs => exact Or.inr h

theorem IsMarker.startsMarker {n : Nat} {m : List Char} (h : IsMarker n m) (rest : List Char) :
    StartsMarker (m ++ rest) := by
  obtain ⟨c, m, rfl⟩ := List.exists_cons_of_ne_nil h.ne_nil
  exact ⟨n, c :: m, rest, h, rfl⟩

theorem StartsMarker.startsSolid {cs : List Char} (h : StartsMarker cs) : StartsSolid cs := by
  rcases h.eq_nil_or_append with rfl | ⟨n, m, rest, hm, rfl⟩
  · nofun
  · exact hm.solid.startsSolid_append hm.ne_nil

/-- Behind its three opening brackets a marker has no bracket of that kind. -/
theorem bracket_not_mem {ds : List Char} (h : ∀ d ∈ ds, isDigit d = true) :
    '[' ∉ ds ++ [']', ']', ']'] := by
  intro hm
  rcases List.mem_append.mp hm with hm | hm
  · exact absurd (h _ hm) (by decide)
  · exact absurd hm (by decide)

/-- No marker begins in a literal and ends behind it, if what follows is another marker: only one
of the two could have the opening brackets that follow. -/
theorem marker?_append_eq_none {c : Char} {cs rest : List Char}
    (h : MarkerFree (c :: cs)) (hr : StartsMarker rest) : marker? (c :: (cs ++ rest)) = none := by
  refine Option.eq_none_iff_forall_ne_some.mpr fun ⟨n, r⟩ hs => ?_
  obtain ⟨m, hm, he⟩ := marker?_eq_some_iff.mp hs
  rw [← List.cons_append] at he
  rcases List.append_eq_append_iff.mp he with ⟨x, hx, hrest⟩ | ⟨x, hx, _⟩
  · cases x with
    | nil => exact h n m hm ⟨[], [], (List.append_nil _).trans (hx.trans (List.append_nil _))⟩
    | cons d x =>
      subst hrest
      obtain ⟨k, m', r', ⟨ds', _, rfl⟩, hk⟩ := hr
      obtain ⟨ds, hn, rfl⟩ := hm
      obtain ⟨hne, hd⟩ := digits_of_read hn
      have hb := bracket_not_mem hd
      simp only [List.cons_append, List.nil_append, List.cons.injEq] at hk hx
      obtain ⟨rfl, hk⟩ := hk
      obtain ⟨e, ds, rfl⟩ := List.exists_cons_of_ne_nil hne
      rcases cs with _ | ⟨c₂, _ | ⟨c₃, cs⟩⟩
      · obtain ⟨_, hx⟩ := List.cons.inj hx.2
        have hk : '[' :: (e :: ds ++ [']', ']', ']'] ++ r) = '[' :: '[' :: _ :=
          (congrArg (· ++ r) hx).trans hk
        exact hb ((List.cons.inj (List.cons.inj hk).2).1 ▸ List.mem_cons_self)
      · obtain ⟨_, hx⟩ := List.cons.inj (List.cons.inj hx.2).2
        have hk : e :: ds ++ [']', ']', ']'] ++ r = '[' :: '[' :: _ :=
          (congrArg (· ++ r) hx).trans hk
        exact hb ((List.cons.inj hk).1 ▸ List.mem_cons_self)
      · have hx : e :: ds ++ [']', ']', ']'] = cs ++ '[' :: x :=
          (List.cons.inj (List.cons.inj hx.2).2).2
        exact hb (hx ▸ List.mem_append_right cs List.mem_cons_self)
  · exact h n m hm ⟨[], x, hx.symm⟩

/-- A literal without markers is a text in front of what follows it. -/
theorem decodeMarkers_append {cs rest : List Char} (h : MarkerFree cs) (hr : StartsMarker rest) :
    decodeMarkers (cs ++ rest) = withLiteral cs (decodeMarkers rest) := by
  induction cs with
  | nil => rfl
  | cons c cs ih =>
    rw [List.cons_append, decodeMarkers_cons_of_marker?_eq_none (marker?_append_eq_none h hr),
      ih (h.of_infix (List.infix_cons (List.infix_refl cs)))]
    rfl

/-- Without markers a text is a literal. -/
theorem decodeMarkers_of_markerFree {cs : List Char} (h : MarkerFree cs) :
    decodeMarkers cs = withLiteral cs [] := by
  have hd := decodeMarkers_append h (show StartsMarker [] from trivial)
  rwa [List.append_nil, decodeMarkers_nil] at hd

theorem withLiteral_nil {cs : List Char} (h : cs ≠ []) : withLiteral cs [] = [.text cs] := by
  induction cs with
  | nil => exact absurd rfl h
  | cons c cs ih =>
    have hc : withLiteral (c :: cs) [] = consLiteral c (withLiteral cs []) := rfl
    cases cs with
    | nil => rfl
    | cons d cs =>
      rw [hc, ih (List.cons_ne_nil d cs)]
      rfl

theorem decodeMarkers_literal {content : List Char} (hne : content ≠ [])
    (hfree : MarkerFree content) : decodeMarkers content = [.text content] := by
  rw [decodeMarkers_of_markerFree hfree, withLiteral_nil hne]

/-- Without closing brackets a text is a literal. -/
theorem decodeMarkers_of_not_mem {cs : List Char} (h : ']' ∉ cs) :
    decodeMarkers cs = withLiteral cs [] :=
  decodeMarkers_of_markerFree (markerFree_of_not_mem h)

/-- Whether no two literals follow each other. -/
def Segment.Apart : List Segment → Prop
  | .text _ :: .text _ :: _ => False
  | _ :: segments => Apart segments
  | [] => True

theorem apart_consLiteral {c : Char} {segments : List Segment} (h : Segment.Apart segments) :
    Segment.Apart (consLiteral c segments) := by
  rcases segments with _ | ⟨_ | n, _ | ⟨_ | k, segments⟩⟩
  · trivial
  · trivial
  · exact h.elim
  · exact h
  · trivial
  · exact h
  · exact h

/-- Decoding makes one literal of what stands between two markers. -/
theorem apart_decodeMarkers (cs : List Char) : Segment.Apart (decodeMarkers cs) := by
  fun_induction decodeMarkers cs with
  | case1 => trivial
  | case2 c cs n rest hm ih => exact ih
  | case3 c cs hm ih => exact apart_consLiteral ih

/-- The literals of a decoded text are parts of it. -/
theorem mem_decodeMarkers {cs content : List Char} (h : .text content ∈ decodeMarkers cs) :
    content ≠ [] ∧ content ⊆ cs := by
  fun_induction decodeMarkers cs generalizing content with
  | case1 => cases h
  | case2 c cs n rest hm ih =>
    obtain ⟨m, _, he⟩ := marker?_eq_some_iff.mp hm
    obtain ⟨hne, hsub⟩ := ih ((List.mem_cons.mp h).resolve_left nofun)
    exact ⟨hne, he ▸ List.Subset.trans hsub (List.subset_append_right m rest)⟩
  | case3 c cs hm ih =>
    rw [consLiteral.eq_def] at h
    split at h
    · rename_i content' segments he
      rcases List.mem_cons.mp h with h | h
      · cases h
        have hsub := (ih (he ▸ List.mem_cons_self)).2
        exact ⟨List.cons_ne_nil _ _, List.cons_subset_cons c hsub⟩
      · obtain ⟨hne, hsub⟩ := ih (he ▸ List.mem_cons_of_mem _ h)
        exact ⟨hne, List.Subset.trans hsub (List.subset_cons_self c cs)⟩
    · rcases List.mem_cons.mp h with h | h
      · cases h
        exact ⟨List.cons_ne_nil c [], List.cons_subset_cons c (List.nil_subset cs)⟩
      · obtain ⟨hne, hsub⟩ := ih h
        exact ⟨hne, List.Subset.trans hsub (List.subset_cons_self c cs)⟩

end MarkupTemplate
