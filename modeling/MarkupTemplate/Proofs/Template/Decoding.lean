import Mathlib.Data.List.Forall2
import MarkupTemplate.Proofs.Template.Occurrences

/-!
# Decoding is exact

A text is split in one way into literals and markers: no literal is empty or has a marker in it,
and no two literals meet. Markers do not overlap, with each other or with what stands around them,
so every place where a marker is written is one of the pieces. Decoding gives this split, with the
literals as they stand and the numbers of the markers.

Fragments are joined with a marker between each two. If they have no markers of their own, the
split of the result is known beforehand, whatever brackets and digits they begin and end with.

## Main definitions

* `MarkupTemplate.Segment.Source` — how a segment is written.
* `MarkupTemplate.Splits` — the segments of a text, with the pieces that they are written as.
* `MarkupTemplate.Fragments.segmentsFrom` — fragments and the slots between them.

## Main results

* `MarkupTemplate.pieceInduction` — induction along literals and markers.
* `MarkupTemplate.decodeMarkers_eq_iff` — decoding finds the only split.
* `MarkupTemplate.decodeMarkers_exact` — the references are the markers of the text.
* `MarkupTemplate.Fragments.decodeMarkers_join` — decoding undoes joining.
-/

namespace MarkupTemplate

open Text

variable {n k : Nat} {cs m before after rest : List Char}

/-! ### Two markers -/

/-- A marker is three opening brackets, digits of a number of 64 bits, and three closing
brackets. -/
theorem isMarker_iff : IsMarker n m ↔
    ∃ ds : List Char, ds ≠ [] ∧ (∀ d ∈ ds, '0' ≤ d ∧ d ≤ '9') ∧ Nat.ofDigitChars 10 ds 0 = n ∧
      n < Numeral.word64 ∧ m = ['[', '[', '['] ++ ds ++ [']', ']', ']'] := by
  refine exists_congr fun ds => ?_
  rw [Numeral.read_ten_eq_ok_iff (by decide)]
  simp only [isDigit, Bool.and_eq_true, decide_eq_true_eq, and_assoc]

/-- Two markers at the start of a text are one. -/
theorem IsMarker.unique (h : IsMarker n m) {m' rest' : List Char} (h' : IsMarker k m')
    (he : m ++ rest = m' ++ rest') : n = k ∧ m = m' := by
  have hm : marker? (m ++ rest) = some (n, rest) := marker?_eq_some_iff.mpr ⟨m, h, rfl⟩
  have hm' : marker? (m ++ rest) = some (k, rest') := marker?_eq_some_iff.mpr ⟨m', h', he⟩
  obtain ⟨rfl, rfl⟩ := Prod.mk.inj (Option.some.inj (hm.symm.trans hm'))
  exact ⟨rfl, List.append_cancel_right he⟩

/-- No marker begins within a marker, behind its first character. -/
theorem IsMarker.not_begins (h : IsMarker n (before ++ m)) (hb : before ≠ []) (hm : m ≠ [])
    (h' : IsMarker k cs) : m ++ rest ≠ cs ++ after := by
  obtain ⟨ds, hn, he⟩ := h
  obtain ⟨ds', -, rfl⟩ := h'
  obtain ⟨hne, hd⟩ := digits_of_read hn
  have hbracket : '[' ∉ ds ++ [']', ']', ']'] := bracket_not_mem hd
  obtain ⟨d, ds, rfl⟩ := List.exists_cons_of_ne_nil hne
  obtain ⟨b, before, rfl⟩ := List.exists_cons_of_ne_nil hb
  obtain ⟨c, m, rfl⟩ := List.exists_cons_of_ne_nil hm
  intro hcs
  simp only [List.cons_append, List.nil_append, List.cons.injEq] at he hcs
  obtain ⟨rfl, hcs⟩ := hcs
  -- The marker inside would have to begin with one of the two brackets in front of the digits.
  rcases before with _ | ⟨_, _ | ⟨_, before⟩⟩
  · simp only [List.nil_append, List.cons.injEq] at he
    simp only [he.2.2, List.cons_append, List.cons.injEq] at hcs
    exact hbracket (by simp [hcs.2.1])
  · simp only [List.cons_append, List.nil_append, List.cons.injEq] at he
    simp only [he.2.2.2, List.cons_append, List.cons.injEq] at hcs
    exact hbracket (by simp [hcs.1])
  · simp only [List.cons_append, List.cons.injEq] at he
    have hmem : '[' ∈ d :: (ds ++ [']', ']', ']']) := he.2.2.2 ▸ by simp
    exact hbracket hmem

/-! ### Splits -/

/-- How a segment is written: a literal as it is, if it is not empty and has no marker in it, and a
reference as a marker of its number. -/
inductive Segment.Source : Segment → List Char → Prop
  | text {content : List Char} : content ≠ [] → MarkerFree content → Source (.text content) content
  | reference {n : Nat} {m : List Char} : IsMarker n m → Source (.reference n) m

/-- The segments of a text with the pieces that they are written as. No two literals meet, and the
pieces side by side are the text. -/
structure Splits (cs : List Char) (segments : List Segment) (sources : List (List Char)) :
    Prop where
  source : List.Forall₂ Segment.Source segments sources
  apart : Segment.Apart segments
  flatten : sources.flatten = cs

/-- Whether a list of segments begins with a literal. -/
def StartsText : List Segment → Prop
  | .text _ :: _ => True
  | _ => False

theorem withLiteral_eq (content : List Char) {segments : List Segment}
    (h : ¬ StartsText segments) :
    withLiteral content segments = [.text content].filter (· ≠ .text []) ++ segments := by
  induction content with
  | nil => simp [withLiteral]
  | cons c content ih =>
    have hc : withLiteral (c :: content) segments = consLiteral c (withLiteral content segments) :=
      rfl
    rw [hc, ih]
    rcases content with _ | ⟨d, content⟩
    · rcases segments with _ | ⟨_ | n, segments⟩
      · rfl
      · exact absurd trivial h
      · rfl
    · rfl

theorem not_startsText_decodeMarkers (h : StartsMarker cs) : ¬ StartsText (decodeMarkers cs) := by
  rcases h.eq_nil_or_append with rfl | ⟨n, m, rest, hm, rfl⟩
  · rw [decodeMarkers_nil]
    exact id
  · rw [decodeMarkers_of_isMarker hm]
    exact id

/-- A literal that is not empty is the first segment. -/
theorem decodeMarkers_literal_append {content : List Char} (hne : content ≠ [])
    (hfree : MarkerFree content) (h : StartsMarker cs) :
    decodeMarkers (content ++ cs) = .text content :: decodeMarkers cs := by
  rw [decodeMarkers_append hfree h, withLiteral_eq _ (not_startsText_decodeMarkers h)]
  simp [hne]

namespace Splits

variable {segments : List Segment} {sources : List (List Char)} {segment : Segment}
  {source : List Char}

theorem tail (h : Splits cs (segment :: segments) (source :: sources)) :
    Splits sources.flatten segments sources := by
  refine ⟨(List.forall₂_cons.mp h.source).2, ?_, rfl⟩
  have ha := h.apart
  rcases segment with _ | n
  · rcases segments with _ | ⟨_ | k, segments⟩
    · trivial
    · exact ha.elim
    · exact ha
  · exact ha

theorem not_startsText {content : List Char}
    (h : Splits cs (.text content :: segments) (source :: sources)) : ¬ StartsText segments := by
  rcases segments with _ | ⟨_ | n, segments⟩
  · exact id
  · exact h.apart.elim
  · exact id

/-- What follows a literal is nothing or a marker. -/
theorem startsMarker (h : Splits cs segments sources) (hs : ¬ StartsText segments) :
    StartsMarker cs := by
  obtain ⟨hsource, -, rfl⟩ := h
  cases hsource with
  | nil => trivial
  | @cons segment source _ sources hs' _ =>
    cases hs' with
    | text _ _ => exact absurd trivial hs
    | reference hm => exact hm.startsMarker sources.flatten

/-- Decoding finds every split. -/
theorem eq_decodeMarkers (h : Splits cs segments sources) : decodeMarkers cs = segments := by
  induction segments generalizing cs sources with
  | nil =>
    obtain ⟨hsource, -, rfl⟩ := h
    cases hsource
    exact decodeMarkers_nil
  | cons segment segments ih =>
    rcases sources with _ | ⟨source, sources⟩
    · exact absurd h.source nofun
    · have htail := ih h.tail
      obtain rfl : source ++ sources.flatten = cs := h.flatten
      cases (List.forall₂_cons.mp h.source).1 with
      | text hne hfree =>
        rw [decodeMarkers_literal_append hne hfree (h.tail.startsMarker h.not_startsText), htail]
      | reference hm => rw [decodeMarkers_of_isMarker hm, htail]

/-- Every place where a marker is written is a piece of the split. -/
theorem exists_of_isMarker (h : Splits cs segments sources) (hm : IsMarker n m)
    (he : cs = before ++ m ++ after) :
    ∃ i, segments[i]? = some (.reference n) ∧ sources[i]? = some m ∧
      (sources.take i).flatten = before := by
  induction segments generalizing cs sources before with
  | nil =>
    obtain ⟨hsource, -, rfl⟩ := h
    cases hsource
    simp [hm.ne_nil] at he
  | cons segment segments ih =>
    rcases sources with _ | ⟨source, sources⟩
    · exact absurd h.source nofun
    have hcs : source ++ sources.flatten = before ++ (m ++ after) := by
      rw [← List.append_assoc, ← he, ← h.flatten, List.flatten_cons]
    -- Behind the first piece the place is found by induction.
    have hbehind (x : List Char) (hb : before = source ++ x)
        (hx : sources.flatten = x ++ (m ++ after)) :
        ∃ i, (segment :: segments)[i]? = some (.reference n) ∧
          (source :: sources)[i]? = some m ∧ ((source :: sources).take i).flatten = before := by
      obtain ⟨i, hseg, hsrc, hpre⟩ := ih h.tail (hx.trans (List.append_assoc x m after).symm)
      exact ⟨i + 1, hseg, hsrc, by rw [List.take_succ_cons, List.flatten_cons, hpre, hb]⟩
    rcases List.append_eq_append_iff.mp hcs with ⟨x, hb, hx⟩ | ⟨x, hsource, hx⟩
    · exact hbehind x hb hx
    · rcases eq_or_ne x [] with rfl | hne
      · exact hbehind [] (by simpa using hsource.symm) (by simpa using hx.symm)
      · cases (List.forall₂_cons.mp h.source).1 with
        | text _ hfree =>
          obtain ⟨c, x, rfl⟩ := List.exists_cons_of_ne_nil hne
          have hnone : marker? (c :: (x ++ sources.flatten)) = none :=
            marker?_append_eq_none (hfree.of_infix ⟨before, [], by simp [hsource]⟩)
              (h.tail.startsMarker h.not_startsText)
          rw [← List.cons_append, ← hx, marker?_eq_some_iff.mpr ⟨m, hm, rfl⟩] at hnone
          cases hnone
        | reference hmark =>
          rcases eq_or_ne before [] with rfl | hb
          · obtain ⟨rfl, rfl⟩ := hmark.unique hm hcs
            exact ⟨0, rfl, rfl, rfl⟩
          · exact absurd hx.symm ((hsource ▸ hmark).not_begins hb hne hm)

/-- A reference of a split is written as a marker of its number. -/
theorem isMarker_of_getElem? (h : Splits cs segments sources) {i : Nat}
    (hseg : segments[i]? = some (.reference n)) (hsrc : sources[i]? = some m) : IsMarker n m := by
  obtain ⟨hi, hseg⟩ := List.getElem?_eq_some_iff.mp hseg
  obtain ⟨hj, hsrc⟩ := List.getElem?_eq_some_iff.mp hsrc
  have hs := h.source.get hi hj
  rw [List.get_eq_getElem, List.get_eq_getElem, hseg, hsrc] at hs
  cases hs with
  | reference hm => exact hm

/-- A split of a text to which a character is added that begins no marker. -/
theorem exists_consLiteral (h : Splits cs segments sources) {c : Char}
    (hc : marker? (c :: cs) = none) :
    ∃ sources', Splits (c :: cs) (consLiteral c segments) sources' := by
  have hfree {content : List Char} (hf : MarkerFree content) (hp : content <+: cs) :
      MarkerFree (c :: content) := by
    obtain ⟨rest, rfl⟩ := hp
    intro n m hm hi
    rcases List.infix_cons_iff.mp hi with ⟨tail, ht⟩ | hi
    · have hs : marker? (c :: (content ++ rest)) = some (n, tail ++ rest) :=
        marker?_eq_some_iff.mpr ⟨m, hm, by rw [← List.append_assoc, ht, List.cons_append]⟩
      cases hc.symm.trans hs
    · exact hf n m hm hi
  obtain ⟨hsource, ha, rfl⟩ := h
  have hone : Segment.Source (.text [c]) [c] :=
    .text (List.cons_ne_nil c []) (hfree (markerFree_of_not_mem List.not_mem_nil) List.nil_prefix)
  have hapart : Segment.Apart (consLiteral c segments) := apart_consLiteral ha
  rcases segments with _ | ⟨content | n, segments⟩
  · exact ⟨[c] :: sources, .cons hone hsource, hapart, rfl⟩
  · obtain ⟨_, sources, ⟨_, hf⟩, hrest, rfl⟩ := List.forall₂_cons_left_iff.mp hsource
    have hmore : Segment.Source (.text (c :: content)) (c :: content) :=
      .text (List.cons_ne_nil c content) (hfree hf (List.prefix_append content sources.flatten))
    exact ⟨(c :: content) :: sources, .cons hmore hrest, hapart, rfl⟩
  · exact ⟨[c] :: sources, .cons hone hsource, hapart, rfl⟩

end Splits

/-! ### Decoding -/

/-- The segments that a text is decoded to are a split of the text. -/
theorem exists_splits_decodeMarkers (cs : List Char) :
    ∃ sources, Splits cs (decodeMarkers cs) sources := by
  fun_induction decodeMarkers cs with
  | case1 => exact ⟨[], .nil, trivial, rfl⟩
  | case2 c cs n rest hm ih =>
    obtain ⟨sources, h⟩ := ih
    obtain ⟨m, hm, he⟩ := marker?_eq_some_iff.mp hm
    exact ⟨m :: sources, .cons (.reference hm) h.source, h.apart, he ▸ congrArg (m ++ ·) h.flatten⟩
  | case3 c cs hm ih =>
    obtain ⟨sources, h⟩ := ih
    exact h.exists_consLiteral hm

/-- Induction along the pieces of a text. It is empty, or begins with a literal, behind which
stands nothing or a marker, or begins with a marker. -/
@[elab_as_elim]
theorem pieceInduction {motive : List Char → Prop} (nil : motive [])
    (literal : ∀ content cs, content ≠ [] → MarkerFree content → StartsMarker cs → motive cs →
      motive (content ++ cs))
    (marker : ∀ n m cs, IsMarker n m → motive cs → motive (m ++ cs)) (cs : List Char) :
    motive cs := by
  obtain ⟨sources, h⟩ := exists_splits_decodeMarkers cs
  generalize decodeMarkers cs = segments at h
  induction segments generalizing cs sources with
  | nil =>
    obtain ⟨hsource, -, rfl⟩ := h
    cases hsource
    exact nil
  | cons segment segments ih =>
    rcases sources with _ | ⟨source, sources⟩
    · exact absurd h.source nofun
    · have htail : motive sources.flatten := ih sources.flatten sources h.tail
      obtain rfl : source ++ sources.flatten = cs := h.flatten
      cases (List.forall₂_cons.mp h.source).1 with
      | text hne hfree =>
        exact literal source _ hne hfree (h.tail.startsMarker h.not_startsText) htail
      | reference hm => exact marker _ source _ hm htail

/-- Decoding finds the only split of a text. -/
theorem decodeMarkers_eq_iff {segments : List Segment} :
    decodeMarkers cs = segments ↔ ∃ sources, Splits cs segments sources := by
  constructor
  · rintro rfl
    exact exists_splits_decodeMarkers cs
  · rintro ⟨sources, h⟩
    exact h.eq_decodeMarkers

/-- **Decoding is exact.** Every text is decoded, to segments that are written as pieces of it: the
literals, which are not empty, have no marker in them and do not meet, and between them the
references, as markers. The references are all the markers of the text, each in its place, and
there is no other split. A marker is three opening brackets, decimal digits that name a number
below `2 ^ 64`, with any number of leading zeros, and three closing brackets. -/
theorem decodeMarkers_exact (cs : List Char) :
    (∀ n m, IsMarker n m ↔
      ∃ ds : List Char, ds ≠ [] ∧ (∀ d ∈ ds, '0' ≤ d ∧ d ≤ '9') ∧ Nat.ofDigitChars 10 ds 0 = n ∧
        n < Numeral.word64 ∧ m = ['[', '[', '['] ++ ds ++ [']', ']', ']']) ∧
      ∃ sources, Splits cs (decodeMarkers cs) sources ∧
        (∀ before m after, cs = before ++ m ++ after → ∀ n,
          (IsMarker n m ↔ ∃ i, (decodeMarkers cs)[i]? = some (.reference n) ∧
            sources[i]? = some m ∧ (sources.take i).flatten = before)) ∧
        ∀ segments sources', Splits cs segments sources' → segments = decodeMarkers cs := by
  obtain ⟨sources, h⟩ := decodeMarkers_eq_iff.mp (rfl : decodeMarkers cs = _)
  refine ⟨fun n m => isMarker_iff, sources, h, fun before m after he n => ?_,
    fun segments sources' h' => (decodeMarkers_eq_iff.mpr ⟨sources', h'⟩).symm⟩
  constructor
  · exact fun hm => h.exists_of_isMarker hm he
  · rintro ⟨i, hseg, hsrc, -⟩
    exact h.isMarker_of_getElem? hseg hsrc

/-! ### Fragments -/

namespace Fragments

/-- The fragments as literals, and between them the references to the slots from `slot` on. -/
def segmentsFrom (slot : Nat) : List String → List Segment
  | [] => []
  | [s] => [.text s.toList]
  | s :: t :: rest => .text s.toList :: .reference slot :: segmentsFrom (slot + 1) (t :: rest)

theorem decodeMarkers_joinFrom {fragments : List String}
    (h : ∀ s ∈ fragments, MarkerFree s.toList) {slot : Nat}
    (hk : slot + slotCount fragments ≤ Numeral.word64) :
    decodeMarkers (joinFrom slot fragments) =
      (segmentsFrom slot fragments).filter (· ≠ .text []) := by
  induction fragments generalizing slot with
  | nil => exact decodeMarkers_nil
  | cons s fragments ih =>
    obtain ⟨hs, ht⟩ := List.forall_mem_cons.mp h
    rcases fragments with _ | ⟨t, rest⟩
    · rw [joinFrom, decodeMarkers_of_markerFree hs, withLiteral_eq _ id, List.append_nil]
      rfl
    · simp only [slotCount, List.length_cons, Nat.add_sub_cancel] at hk ih
      have hm : IsMarker slot (marker slot) := isMarker_marker (by omega)
      have hstart : StartsMarker (marker slot ++ joinFrom (slot + 1) (t :: rest)) :=
        ⟨slot, marker slot, _, hm, rfl⟩
      rw [joinFrom, segmentsFrom, List.append_assoc,
        decodeMarkers_append hs hstart, decodeMarkers_of_isMarker hm,
        ih ht (by omega), withLiteral_eq _ id]
      exact (List.filter_append [Segment.text s.toList] (Segment.reference slot :: _)).symm

/-- **Decoding undoes joining.** Joined fragments without markers of their own are decoded to the
fragments in order with the references to the slots between them, without the empty fragments.
Slots are numbered by machine words, as lists in memory are. -/
theorem decodeMarkers_join {fragments : List String} (h : ∀ s ∈ fragments, MarkerFree s.toList)
    (hk : slotCount fragments ≤ Numeral.word64) :
    decodeMarkers (join fragments).toList =
      (segmentsFrom 0 fragments).filter (· ≠ .text []) := by
  rw [join, String.toList_ofList]
  exact decodeMarkers_joinFrom h (by rwa [Nat.zero_add])

/-- Fragments that begin and end with pieces of markers. -/
def brokenMarkers : List String := ["a[[[12", "0]]]b[", "", "]]] [["]

/-- Only the markers that joining puts in are decoded, and the empty fragment leaves no literal. -/
theorem decodeMarkers_join_brokenMarkers :
    (∀ s ∈ brokenMarkers, MarkerFree s.toList) ∧ slotCount brokenMarkers ≤ Numeral.word64 ∧
      decodeMarkers (join brokenMarkers).toList =
        [.text "a[[[12".toList, .reference 0, .text "0]]]b[".toList, .reference 1, .reference 2,
          .text "]]] [[".toList] := by
  have h : ∀ s ∈ brokenMarkers, MarkerFree s.toList := by
    refine List.forall_mem_cons.mpr ⟨markerFree_of_not_mem (by decide), fun s hs => ?_⟩
    refine markerFree_of_not_infix ?_
    revert s
    decide +kernel
  have hk : slotCount brokenMarkers ≤ Numeral.word64 := by decide
  exact ⟨h, hk, (decodeMarkers_join h hk).trans (by decide)⟩

end Fragments

end MarkupTemplate
