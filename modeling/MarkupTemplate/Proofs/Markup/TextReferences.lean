import Mathlib.Data.List.DropRight
import MarkupTemplate.Proofs.Markup.VoidTags
import MarkupTemplate.Proofs.Text.Numerals

/-!
# References in text

A reference in text names a character by one of five names, or by its number in decimal or
hexadecimal digits. Any other reference stands for itself, ampersand and semicolon included. The
grammar of references has no signs, but one plus sign before the digits of a number is let pass.

## Main definitions

* `MarkupTemplate.Markup.Names` — the references to characters, with given signs of numbers.
* `MarkupTemplate.Markup.unsigned`, `MarkupTemplate.Markup.plusSigned` — signs of numbers.
* `MarkupTemplate.Markup.textAtStart`, `MarkupTemplate.Markup.textAtEnd` — the text that a stream
  begins and ends with.

## Main results

* `MarkupTemplate.Markup.resolveInText_eq_singleton_iff` — references to characters.
* `MarkupTemplate.Markup.resolveInText_of_not_names` — all other references.
* `MarkupTemplate.Markup.names_unsigned_iff` — what is let pass beyond the grammar.
* `MarkupTemplate.Markup.merged_around` — text within a stream.
* `MarkupTemplate.Markup.parse_reference` — a reference within a text.
-/

namespace MarkupTemplate.Markup

open Dom Text

/-! ### The grammar of references -/

/-- The names of characters. -/
def characterNames : List (String × Char) :=
  [("lt", '<'), ("gt", '>'), ("amp", '&'), ("apos", '\''), ("quot", '"')]

/-- A number in a radix with the given digits, behind one of some signs. -/
def IsSignedNumber (signs : List (List Char)) (radix : Nat) (digits cs : List Char) (n : Nat) :
    Prop :=
  ∃ sign ∈ signs, ∃ ds, cs = sign ++ ds ∧ ds ≠ [] ∧ (∀ d ∈ ds, d ∈ digits) ∧
    Numeral.number radix ds = n

/-- What stands between `&` and `;` in a reference to a character. -/
inductive Names (signs : List (List Char)) : List Char → Char → Prop
  | named {name : String} {c : Char} (h : (name, c) ∈ characterNames) : Names signs name.toList c
  | decimal {number : List Char} {c : Char}
      (h : IsSignedNumber signs 10 Numeral.decimalDigits number c.toNat) :
      Names signs ('#' :: number) c
  | hexadecimal {x : Char} {number : List Char} {c : Char} (hx : x = 'x' ∨ x = 'X')
      (h : IsSignedNumber signs 16 Numeral.hexadecimalDigits number c.toNat) :
      Names signs ('#' :: x :: number) c

/-- No sign. -/
def unsigned : List (List Char) := [[]]

/-- No sign or a plus sign. -/
def plusSigned : List (List Char) := [[], ['+']]

/-! ### Numbers -/

theorem toNat_lt_word32 (c : Char) : c.toNat < Numeral.word32 := by
  have hvalid : c.toNat < 0xD800 ∨ 0xDFFF < c.toNat ∧ c.toNat < 0x110000 := c.valid
  have hword : Numeral.word32 = 0x100000000 := by decide
  omega

theorem scalar?_eq_some_iff {n : Nat} {c : Char} : scalar? n = some c ↔ c.toNat = n := by
  rw [scalar?]
  constructor
  · intro h
    split at h
    · rename_i hvalid
      cases h
      rw [Char.ofNat, dif_pos hvalid]
      rfl
    · cases h
  · rintro rfl
    have hvalid : c.toNat.isValidChar := c.valid
    rw [if_pos hvalid, Char.ofNat_toNat]

/-- A number is either unsigned or begins with a plus sign. -/
theorem isSignedNumber_plusSigned_iff {radix : Nat} {digits cs : List Char} {n : Nat} :
    IsSignedNumber plusSigned radix digits cs n ↔
      IsSignedNumber unsigned radix digits cs n ∨
        ∃ ds, cs = '+' :: ds ∧ IsSignedNumber unsigned radix digits ds n := by
  simp [IsSignedNumber, plusSigned, unsigned]

/-- The character of unsigned digits. -/
def codeOfDigits? (radix : Nat) (ds : List Char) : Option Char :=
  match Numeral.read radix Numeral.word32 ds with
  | .ok code => scalar? code
  | .error _ => none

theorem codeInText?_plus (radix : Nat) (ds : List Char) :
    codeInText? radix ('+' :: ds) = codeOfDigits? radix ds := rfl

theorem codeInText?_of_ne {cs : List Char} (h : ∀ ds, cs ≠ '+' :: ds) (radix : Nat) :
    codeInText? radix cs = codeOfDigits? radix cs := by
  cases cs with
  | nil => rfl
  | cons d ds =>
    simp only [codeInText?]
    rfl

section Radix

variable {radix : Nat} {digits cs : List Char} {c : Char} (hr : 0 < radix)
  (hd : ∀ d, (Numeral.digit? radix d).isSome = true ↔ d ∈ digits)

include hr hd

/-- No character has a number that is too large to be read. -/
theorem read_word32_iff :
    Numeral.read radix Numeral.word32 cs = .ok c.toNat ↔
      IsSignedNumber unsigned radix digits cs c.toNat := by
  rw [Numeral.read_eq_ok_iff hr (by decide)]
  simp [IsSignedNumber, unsigned, Numeral.number, hd, toNat_lt_word32]

/-- The character of a number in text, with a plus sign before its digits or none. -/
theorem codeInText?_eq_some_iff (hplus : '+' ∉ digits) :
    codeInText? radix cs = some c ↔ IsSignedNumber plusSigned radix digits cs c.toNat := by
  have hcode (ds : List Char) : codeOfDigits? radix ds = some c ↔
      IsSignedNumber unsigned radix digits ds c.toNat := by
    rw [← read_word32_iff hr hd, codeOfDigits?]
    cases Numeral.read radix Numeral.word32 ds with
    | ok code => rw [scalar?_eq_some_iff, Except.ok.injEq, eq_comm]
    | error fault => exact iff_of_false nofun nofun
  rw [isSignedNumber_plusSigned_iff]
  by_cases hp : ∃ ds, cs = '+' :: ds
  · obtain ⟨ds, rfl⟩ := hp
    have hnot : ¬ IsSignedNumber unsigned radix digits ('+' :: ds) c.toNat := by
      rw [← read_word32_iff hr hd, Numeral.read_eq_ok_iff hr (by decide)]
      exact fun h => hplus ((hd '+').mp (h.2.1 '+' List.mem_cons_self))
    simp only [or_iff_right hnot, codeInText?_plus, hcode, List.cons.injEq, true_and,
      exists_eq_left']
  · have hnot : ¬ ∃ ds, cs = '+' :: ds ∧ IsSignedNumber unsigned radix digits ds c.toNat :=
      fun ⟨ds, hds, _⟩ => hp ⟨ds, hds⟩
    rw [codeInText?_of_ne fun ds hds => hp ⟨ds, hds⟩, hcode, or_iff_left hnot]

end Radix

/-! ### References -/

/-- The character that a reference in text names. -/
def character? (body : List Char) : Option Char :=
  match named? body with
  | some c => some c
  | none =>
    match body with
    | '#' :: 'x' :: digits => codeInText? 16 digits
    | '#' :: 'X' :: digits => codeInText? 16 digits
    | '#' :: digits => codeInText? 10 digits
    | _ => none

theorem resolveInText_eq (body : List Char) :
    resolveInText body =
      match character? body with
      | some c => [c]
      | none => '&' :: body ++ [';'] := rfl

theorem named?_eq_some_iff {body : List Char} {c : Char} :
    named? body = some c ↔ ∃ name, (name, c) ∈ characterNames ∧ String.toList name = body := by
  constructor
  · intro h
    rw [named?] at h
    split at h
    · cases h
      exact ⟨"lt", by decide, by simp [*]⟩
    split at h
    · cases h
      exact ⟨"gt", by decide, by simp [*]⟩
    split at h
    · cases h
      exact ⟨"amp", by decide, by simp [*]⟩
    split at h
    · cases h
      exact ⟨"apos", by decide, by simp [*]⟩
    split at h
    · cases h
      exact ⟨"quot", by decide, by simp [*]⟩
    · cases h
  · rintro ⟨name, hname, rfl⟩
    have hall : ∀ p ∈ characterNames, named? p.1.toList = some p.2 := by decide
    exact hall _ hname

/-- A number is no name. -/
theorem named?_hash (number : List Char) : named? ('#' :: number) = none := by
  simp [named?]

theorem codeInText?_ten_iff {cs : List Char} {c : Char} :
    codeInText? 10 cs = some c ↔
      IsSignedNumber plusSigned 10 Numeral.decimalDigits cs c.toNat :=
  codeInText?_eq_some_iff (by decide) Numeral.isSome_digit?_ten_iff (by decide)

theorem codeInText?_sixteen_iff {cs : List Char} {c : Char} :
    codeInText? 16 cs = some c ↔
      IsSignedNumber plusSigned 16 Numeral.hexadecimalDigits cs c.toNat :=
  codeInText?_eq_some_iff (by decide) Numeral.isSome_digit?_sixteen_iff (by decide)

/-- A number has no character first that is neither a digit nor a sign. -/
theorem ne_cons_of_isSignedNumber {radix n : Nat} {digits cs : List Char} {x : Char}
    (hx : x ∉ '+' :: digits) (h : IsSignedNumber plusSigned radix digits cs n)
    (rest : List Char) : cs ≠ x :: rest := by
  rintro rfl
  obtain ⟨sign, hsign, ds, he, hne, hmem, -⟩ := h
  have hall : ∀ d ∈ sign ++ ds, d ∈ '+' :: digits := by
    intro d hd
    rcases List.mem_append.mp hd with hd | hd
    · have hs : ∀ s ∈ plusSigned, ∀ d ∈ s, d = '+' := by simp [plusSigned]
      exact List.mem_cons.mpr (.inl (hs sign hsign d hd))
    · exact List.mem_cons_of_mem '+' (hmem d hd)
  exact hx (hall x (he ▸ List.mem_cons_self))

theorem character?_eq_some_iff {body : List Char} {c : Char} :
    character? body = some c ↔ Names plusSigned body c := by
  constructor
  · intro h
    rw [character?.eq_def] at h
    split at h
    · rename_i hnamed
      cases h
      obtain ⟨name, hname, rfl⟩ := named?_eq_some_iff.mp hnamed
      exact .named hname
    · split at h
      · exact .hexadecimal (.inl rfl) (codeInText?_sixteen_iff.mp h)
      · exact .hexadecimal (.inr rfl) (codeInText?_sixteen_iff.mp h)
      · exact .decimal (codeInText?_ten_iff.mp h)
      · cases h
  · intro h
    cases h with
    | named hname =>
      rw [character?.eq_def, named?_eq_some_iff.mpr ⟨_, hname, rfl⟩]
    | decimal hnumber =>
      rw [character?, named?_hash]
      · exact codeInText?_ten_iff.mpr hnumber
      · exact ne_cons_of_isSignedNumber (by decide) hnumber
      · exact ne_cons_of_isSignedNumber (by decide) hnumber
    | hexadecimal hx hnumber =>
      rw [character?.eq_def, named?_hash]
      rcases hx with rfl | rfl
      · exact codeInText?_sixteen_iff.mpr hnumber
      · exact codeInText?_sixteen_iff.mpr hnumber

/-- A reference in text stands for one character exactly if it names this character. -/
theorem resolveInText_eq_singleton_iff {body : List Char} {c : Char} :
    resolveInText body = [c] ↔ Names plusSigned body c := by
  rw [resolveInText_eq, ← character?_eq_some_iff]
  cases character? body with
  | none => exact iff_of_false (by simp) nofun
  | some d => simp

/-- A reference that names no character stands for itself. -/
theorem resolveInText_of_not_names {body : List Char} (h : ¬ ∃ c, Names plusSigned body c) :
    resolveInText body = '&' :: body ++ [';'] := by
  rw [resolveInText_eq]
  cases hc : character? body with
  | none => rfl
  | some c => exact absurd ⟨c, character?_eq_some_iff.mp hc⟩ h

theorem isSignedNumber_unsigned_iff {radix n : Nat} {digits cs : List Char}
    (hplus : '+' ∉ digits) :
    IsSignedNumber unsigned radix digits cs n ↔
      IsSignedNumber plusSigned radix digits cs n ∧ '+' ∉ cs := by
  rw [isSignedNumber_plusSigned_iff]
  constructor
  · intro h
    obtain ⟨sign, hsign, ds, rfl, -, hds, -⟩ := id h
    obtain rfl := List.mem_singleton.mp hsign
    exact ⟨.inl h, fun hmem => hplus (hds '+' hmem)⟩
  · rintro ⟨h | ⟨ds, rfl, -⟩, hcs⟩
    · exact h
    · exact absurd List.mem_cons_self hcs

/-- Beyond the grammar only numbers with a plus sign are let pass. -/
theorem names_unsigned_iff {body : List Char} {c : Char} :
    Names unsigned body c ↔ Names plusSigned body c ∧ '+' ∉ body := by
  constructor
  · intro h
    cases h with
    | named hname =>
      have hall : ∀ p ∈ characterNames, '+' ∉ p.1.toList := by decide
      exact ⟨.named hname, hall _ hname⟩
    | decimal hnumber =>
      obtain ⟨hsigned, hnot⟩ := (isSignedNumber_unsigned_iff (by decide)).mp hnumber
      exact ⟨.decimal hsigned, by simpa using hnot⟩
    | hexadecimal hx hnumber =>
      obtain ⟨hsigned, hnot⟩ := (isSignedNumber_unsigned_iff (by decide)).mp hnumber
      refine ⟨.hexadecimal hx hsigned, ?_⟩
      rcases hx with rfl | rfl
      · simpa using hnot
      · simpa using hnot
  · rintro ⟨h, hplus⟩
    cases h with
    | named hname => exact .named hname
    | decimal hnumber =>
      rw [List.mem_cons, not_or] at hplus
      exact .decimal ((isSignedNumber_unsigned_iff (by decide)).mpr ⟨hnumber, hplus.2⟩)
    | hexadecimal hx hnumber =>
      rw [List.mem_cons, List.mem_cons, not_or, not_or] at hplus
      exact .hexadecimal hx ((isSignedNumber_unsigned_iff (by decide)).mpr ⟨hnumber, hplus.2.2⟩)

/-! ### Runs of text -/

/-- Whether a token goes on the text before it. -/
def Token.isTextual (t : Token) : Bool := t.text?.isSome

/-- The text of a run of tokens. -/
def textOf (ts : List Token) : List Char := ts.flatMap fun t => t.text?.getD []

theorem Token.exists_of_isTextual {t : Token} (h : t.isTextual = true) :
    ∃ content, t.text? = some content :=
  Option.isSome_iff_exists.mp h

theorem Token.text?_of_not_isTextual {t : Token} (h : t.isTextual = false) : t.text? = none :=
  Option.not_isSome_iff_eq_none.mp (Bool.eq_false_iff.mp h)

/-- A run of text is merged with the text behind it. -/
theorem merged_run {run : List Token} (h : ∀ t ∈ run, t.isTextual = true) (ts : List Token) :
    merged (run ++ ts) = consText (textOf run) (merged ts) := by
  induction run with
  | nil => exact (consText_nil (merged ts)).symm
  | cons t run ih =>
    obtain ⟨ht, hrun⟩ := List.forall_mem_cons.mp h
    obtain ⟨content, hc⟩ := t.exists_of_isTextual ht
    rw [List.cons_append, merged, hc]
    dsimp only
    rw [ih hrun, consText_consText, textOf, textOf, List.flatMap_cons, hc]
    rfl

/-- What is not empty takes text put in front as it would without what follows. -/
theorem consText_append {ts : List Token} (h : ts ≠ []) (content : List Char) :
    consText content ts ≠ [] ∧
      ∀ us, consText content (ts ++ us) = consText content ts ++ us := by
  obtain ⟨t, ts, rfl⟩ := List.exists_cons_of_ne_nil h
  cases t with
  | text more => exact ⟨List.cons_ne_nil _ _, fun us => rfl⟩
  | _ => simp [consText]

/-- Up to a token that is no text, a stream is merged without regard to what follows. -/
theorem exists_merged_eq {t : Token} (ht : t.text? = none) (ts : List Token) :
    ∃ ms ≠ [], ∀ us, merged (ts ++ t :: us) = ms ++ merged us := by
  induction ts with
  | nil =>
    refine ⟨t.split, ?_, fun us => ?_⟩
    · cases t <;> exact List.cons_ne_nil _ _
    · rw [List.nil_append, merged, ht]
  | cons u ts ih =>
    obtain ⟨ms, hne, hms⟩ := ih
    cases hu : u.text? with
    | some content =>
      obtain ⟨hne, happend⟩ := consText_append hne content
      refine ⟨consText content ms, hne, fun us => ?_⟩
      rw [List.cons_append, merged, hu]
      dsimp only
      rw [hms, happend]
    | none =>
      refine ⟨u.split ++ ms, List.append_ne_nil_of_right_ne_nil _ hne, fun us => ?_⟩
      rw [List.cons_append, merged, hu]
      dsimp only
      rw [hms, List.append_assoc]

/-- Streams are merged apart if the first does not end in text. -/
theorem merged_append {ts : List Token} (h : ∀ t ∈ ts.getLast?, t.isTextual = false)
    (us : List Token) : merged (ts ++ us) = merged ts ++ merged us := by
  rcases List.eq_nil_or_concat ts with rfl | ⟨init, t, rfl⟩
  · rfl
  · have ht : t.text? = none := t.text?_of_not_isTextual (h t (by simp))
    obtain ⟨ms, -, hms⟩ := exists_merged_eq ht init
    have hself : merged (init ++ [t]) = ms := (hms []).trans (List.append_nil ms)
    rw [List.concat_eq_append, hself, ← hms us, List.append_assoc]
    rfl

/-- Text is not merged with what is no text. -/
theorem consText_merged {us : List Token} (h : ∀ u ∈ us.head?, u.isTextual = false)
    (content : List Char) : consText content (merged us) = textTokens content ++ merged us := by
  cases us with
  | nil => rfl
  | cons u us =>
    have hu : u.text? = none := u.text?_of_not_isTextual (h u rfl)
    rw [merged, hu]
    exact consText_split hu content _

/-- The text that a stream begins with. -/
def textAtStart (ts : List Token) : List Char := textOf (ts.takeWhile Token.isTextual)

/-- The text that a stream ends with. -/
def textAtEnd (ts : List Token) : List Char := textOf (ts.rtakeWhile Token.isTextual)

/-- The stream without the text that it begins with. -/
def afterText (ts : List Token) : List Token := ts.dropWhile Token.isTextual

/-- The stream without the text that it ends with. -/
def beforeText (ts : List Token) : List Token := ts.rdropWhile Token.isTextual

/-- A text within a stream becomes one text with all the text before and behind it. -/
theorem merged_around {t : Token} {content : List Char} (ht : t.text? = some content)
    (hne : content ≠ []) (ts us : List Token) :
    merged (ts ++ t :: us) = merged (beforeText ts) ++
      .text (textAtEnd ts ++ content ++ textAtStart us) :: merged (afterText us) := by
  have hts : beforeText ts ++ ts.rtakeWhile Token.isTextual = ts :=
    List.rdropWhile_append_rtakeWhile
  have hus : us.takeWhile Token.isTextual ++ afterText us = us := List.takeWhile_append_dropWhile
  have hbefore : ∀ u ∈ (beforeText ts).getLast?, u.isTextual = false := fun u hu => by
    obtain ⟨hne, rfl⟩ := List.mem_getLast?_eq_getLast hu
    exact Bool.eq_false_iff.mpr (List.rdropWhile_last_not Token.isTextual ts hne)
  have hafter : ∀ u ∈ (afterText us).head?, u.isTextual = false := fun u hu => by
    have hnot := List.head?_dropWhile_not Token.isTextual us
    rw [show (us.dropWhile Token.isTextual).head? = some u from hu] at hnot
    exact hnot
  have hrun : ∀ u ∈ ts.rtakeWhile Token.isTextual ++ t :: us.takeWhile Token.isTextual,
      u.isTextual = true := by
    intro u hu
    rcases List.mem_append.mp hu with hu | hu
    · exact List.mem_rtakeWhile_imp hu
    rcases List.mem_cons.mp hu with rfl | hu
    · rw [Token.isTextual, ht]
      rfl
    · exact List.mem_takeWhile_imp hu
  have htext : textOf (ts.rtakeWhile Token.isTextual ++ t :: us.takeWhile Token.isTextual) =
      textAtEnd ts ++ content ++ textAtStart us := by
    simp [textOf, textAtEnd, textAtStart, ht]
  have hstream : ts ++ t :: us = beforeText ts ++
      (ts.rtakeWhile Token.isTextual ++ t :: us.takeWhile Token.isTextual ++ afterText us) := by
    rw [List.append_assoc, List.cons_append, hus, ← List.append_assoc, hts]
  rw [hstream, merged_append hbefore, merged_run hrun, htext, consText_merged hafter,
    textTokens_of_ne_nil (by simp [hne])]
  rfl

/-! ### Acceptance -/

/-- What a mode builds a forest of strictly. -/
def Mode.stream : Mode → List Token → List Token
  | .strict, ts => ts
  | .lenient, ts => selfClosing ts

theorem Token.selfClosing_of_isTextual {t : Token} (ht : t.isTextual = true) :
    t.selfClosing = [t] := by
  cases t with
  | text | reference | cdata | declaration => rfl
  | startTag | emptyTag | endTag | comment | doctype | instruction => cases ht

theorem Mode.stream_around (mode : Mode) {t : Token} (ht : t.isTextual = true)
    (ts us : List Token) :
    mode.stream (ts ++ t :: us) = mode.stream ts ++ t :: mode.stream us := by
  cases mode with
  | strict => rfl
  | lenient =>
    show selfClosing (ts ++ t :: us) = selfClosing ts ++ t :: selfClosing us
    rw [selfClosing, List.flatMap_append, List.flatMap_cons, Token.selfClosing_of_isTextual ht]
    rfl

theorem build_stream {mode : Mode} {ts : List Token} {nodes : List Node}
    (h : build mode ts = .ok nodes) : build .strict (mode.stream ts) = .ok nodes := by
  cases mode with
  | strict => exact h
  | lenient => exact (build_lenient_eq_ok_iff.mp h).2

theorem exists_build_strict_iff {ts : List Token} :
    (∃ nodes, build .strict ts = .ok nodes) ↔ verdict ts = .ok () := by
  rw [← map_build, Except.map_eq_ok_iff]
  exact ⟨fun ⟨nodes, h⟩ => ⟨nodes, h, rfl⟩, fun ⟨nodes, h, _⟩ => ⟨nodes, h⟩⟩

section Textual

variable {t : Token} (ht : t.isTextual = true) (ts us : List Token)

include ht

theorem verdict_around : verdict (ts ++ t :: us) = verdict (ts ++ us) := by
  have htrack (names : List String) : track names (t :: us) = track names us := by
    cases t with
    | text | reference | cdata | declaration => rfl
    | startTag | emptyTag | endTag | comment | doctype | instruction => cases ht
  simp only [verdict, track_append, htrack]

theorem covered_around (allowance : Nat) :
    Covered allowance (ts ++ t :: us) ↔ Covered allowance (ts ++ us) := by
  induction ts generalizing allowance with
  | nil =>
    have hallowed : t.allowed allowance = some allowance := by
      cases t with
      | text | reference | cdata | declaration => rfl
      | startTag | emptyTag | endTag | comment | doctype | instruction => cases ht
    rw [List.nil_append, covered_cons_iff, hallowed]
    simp
  | cons u ts ih => simp only [List.cons_append, covered_cons_iff, ih]

/-- A text within a stream has no part in whether the stream is accepted. -/
theorem exists_build_around (mode : Mode) :
    (∃ nodes, build mode (ts ++ t :: us) = .ok nodes) ↔
      ∃ nodes, build mode (ts ++ us) = .ok nodes := by
  cases mode with
  | strict => rw [exists_build_strict_iff, exists_build_strict_iff, verdict_around ht]
  | lenient =>
    have hstream : selfClosing (ts ++ t :: us) = selfClosing ts ++ t :: selfClosing us :=
      Mode.lenient.stream_around ht ts us
    have happend : selfClosing (ts ++ us) = selfClosing ts ++ selfClosing us :=
      List.flatMap_append
    simp only [build_lenient_eq_ok_iff, exists_and_left, exists_build_strict_iff, hstream,
      happend, verdict_around ht, covered_around ht]

end Textual

/-! ### References within a text -/

/-- The tokens of a text with a reference in it. -/
theorem tokens_reference {before body : List Char} {ts : List Token}
    (hbody : ∀ c ∈ body, isTextReference c = true) (hbefore : tokens before = (ts, none))
    (after : List Char) :
    tokens (before ++ '&' :: (body ++ ';' :: after)) =
      (ts ++ .reference body :: (tokens after).1, (tokens after).2) := by
  have hread : readToken '&' (body ++ ';' :: after) = .ok (.reference body, after) :=
    readReference_eq hbody after
  rw [tokens_append rfl hbefore, tokens_of_readToken hread]

/-- No forest is read from a text with a fault. -/
theorem parse_of_fault {mode : Mode} {markup : String} {ts : List Token} {stop : Stop}
    (h : tokens (dropByteOrderMark markup.toList) = (ts, some stop)) (nodes : List Node) :
    parse mode markup ≠ .ok nodes := by
  intro hp
  rw [parse, parseChars, h] at hp
  obtain ⟨b, -, hb⟩ := Except.bind_eq_ok_iff.mp hp
  cases hb

/-- A reference in text that begins where a token may begin. It stands for one character exactly if
it names this character, with a plus sign before a number let pass, and else for itself. It has no
part in whether the markup is accepted, and in the forest what it stands for is one text with the
text on both sides. -/
theorem parse_reference {mode : Mode} {markup : String} {before body after : List Char}
    {ts us : List Token} {stop? : Option Stop}
    (hmarkup : dropByteOrderMark markup.toList = before ++ '&' :: (body ++ ';' :: after))
    (hbody : ∀ c ∈ body, isTextReference c = true) (hbefore : tokens before = (ts, none))
    (hafter : tokens after = (us, stop?)) :
    (∀ c, resolveInText body = [c] ↔ Names plusSigned body c) ∧
      (∀ c, Names unsigned body c ↔ resolveInText body = [c] ∧ '+' ∉ body) ∧
      ((¬ ∃ c, Names plusSigned body c) → resolveInText body = '&' :: body ++ [';']) ∧
      ((∃ nodes, parse mode markup = .ok nodes) ↔
        stop? = none ∧ ∃ nodes, build mode (ts ++ us) = .ok nodes) ∧
      ∀ nodes, parse mode markup = .ok nodes →
        Node.linearAll nodes =
          (merged (beforeText (mode.stream ts))).map Token.plain ++
            .text (textAtEnd (mode.stream ts) ++ resolveInText body ++
                textAtStart (mode.stream us)) ::
              (merged (afterText (mode.stream us))).map Token.plain := by
  refine ⟨fun c => resolveInText_eq_singleton_iff, fun c => ?_, resolveInText_of_not_names, ?_⟩
  · rw [resolveInText_eq_singleton_iff]
    exact names_unsigned_iff
  have htokens : tokens (dropByteOrderMark markup.toList) =
      (ts ++ .reference body :: us, stop?) := by
    rw [hmarkup, tokens_reference hbody hbefore, hafter]
  have ht : (Token.reference body).isTextual = true := rfl
  cases stop? with
  | some stop =>
    have hfault (nodes : List Node) : parse mode markup ≠ .ok nodes := parse_of_fault htokens nodes
    exact ⟨iff_of_false (fun ⟨nodes, h⟩ => hfault nodes h) nofun,
      fun nodes h => absurd h (hfault nodes)⟩
  | none =>
    rw [parse_eq_build htokens]
    refine ⟨(exists_build_around ht ts us mode).trans (and_iff_right rfl).symm, ?_⟩
    intro nodes h
    rw [linearAll_build (build_stream h), mode.stream_around ht,
      merged_around rfl (resolveInText_ne_nil body), List.map_append, List.map_cons]
    rfl

theorem parse_reference_letter :
    dropByteOrderMark "<p>a &#65;b</p>".toList =
        "<p>a ".toList ++ '&' :: ("#65".toList ++ ';' :: "b</p>".toList) ∧
      (∀ c ∈ "#65".toList, isTextReference c = true) ∧
      tokens "<p>a ".toList = ([.startTag ['p'] [], .text ['a', ' ']], none) ∧
      tokens "b</p>".toList = ([.text ['b'], .endTag ['p']], none) ∧
      Names unsigned "#65".toList 'A' ∧
      ∀ mode, ∃ nodes, parse mode "<p>a &#65;b</p>" = .ok nodes ∧
        Node.linearAll nodes = [.startTag ['p'] [], .text "a Ab".toList, .endTag ['p']] := by
  have hmarkup : dropByteOrderMark "<p>a &#65;b</p>".toList =
      "<p>a ".toList ++ '&' :: ("#65".toList ++ ';' :: "b</p>".toList) := by decide +kernel
  have hbody : ∀ c ∈ "#65".toList, isTextReference c = true := List.all_eq_true.mp rfl
  have hbefore : tokens "<p>a ".toList = ([.startTag ['p'] [], .text ['a', ' ']], none) := by
    decide +kernel
  have hafter : tokens "b</p>".toList = ([.text ['b'], .endTag ['p']], none) := by decide +kernel
  have hname : Names unsigned "#65".toList 'A' :=
    names_unsigned_iff.mpr ⟨character?_eq_some_iff.mp (by decide), by decide⟩
  refine ⟨hmarkup, hbody, hbefore, hafter, hname, fun mode => ?_⟩
  obtain ⟨-, hgrammar, -, haccepted, hlinear⟩ :=
    @parse_reference mode _ _ _ _ _ _ _ hmarkup hbody hbefore hafter
  have hbuild : ∃ nodes, build mode
      ([.startTag ['p'] [], .text ['a', ' ']] ++ [.text ['b'], .endTag ['p']]) = .ok nodes :=
    ⟨[.element "p" [] [.text "a b"]], by cases mode <;> decide +kernel⟩
  obtain ⟨nodes, hn⟩ := haccepted.mpr ⟨rfl, hbuild⟩
  refine ⟨nodes, hn, (hlinear nodes hn).trans ?_⟩
  rw [((hgrammar 'A').mp hname).1]
  cases mode <;> decide

/-- A number with a plus sign is no reference of the grammar, but it is resolved. -/
theorem parse_reference_plus :
    (∀ mode, parse mode "<p>&#+65;</p>" = .ok [.element "p" [] [.text "A"]]) ∧
      ¬ ∃ c, Names unsigned "#+65".toList c := by
  refine ⟨fun mode => by cases mode <;> decide +kernel, fun ⟨c, h⟩ => ?_⟩
  exact absurd (names_unsigned_iff.mp h).2 (by decide)

end MarkupTemplate.Markup
