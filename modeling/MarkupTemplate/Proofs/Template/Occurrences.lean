import MarkupTemplate.Proofs.Template.Ampersands
import MarkupTemplate.Proofs.Template.Markers
import MarkupTemplate.Template.Fragments

/-!
# The markers in a text

Markers do not overlap, so a text has a list of markers in order (`MarkupTemplate.markers`), which
are the references that it decodes to. What two texts have, they have together in a row. More
arises only where a marker begins in one text and ends in the next.

Where characters that belong to no marker are exchanged for other such characters, the markers
stay. This is so when blanks are collapsed or dropped at the ends and when ampersands are escaped.

## Main definitions

* `MarkupTemplate.markers` — the numbers of the markers in a text.
* `MarkupTemplate.Straddled` — a marker begins in one text and ends in the next.
* `MarkupTemplate.Alike` — texts that differ only in characters that belong to no marker.

## Main results

* `MarkupTemplate.filterMap_decodeMarkers` — the markers are what is decoded.
* `MarkupTemplate.markers_append_sublist`, `MarkupTemplate.markers_append`
* `MarkupTemplate.Alike.markers_eq`
* `MarkupTemplate.markers_joinFrom` — joined fragments have the markers of their slots, in order.
-/

namespace MarkupTemplate

open Text

/-- The numbers of the markers in a text, in their order. -/
def markers : List Char → List Nat
  | [] => []
  | c :: cs =>
    match marker? (c :: cs) with
    | some (n, _) => n :: markers cs
    | none => markers cs

variable {a b cs ds : List Char}

theorem markers_cons_of_eq_none {c : Char} (h : marker? (c :: cs) = none) :
    markers (c :: cs) = markers cs := by
  rw [markers, h]

theorem markers_cons_of_eq_some {c : Char} {n : Nat} {rest : List Char}
    (h : marker? (c :: cs) = some (n, rest)) : markers (c :: cs) = n :: markers cs := by
  rw [markers, h]

theorem marker?_cons_of_ne {c : Char} (h : c ≠ '[') : marker? (c :: cs) = none := by
  refine Option.eq_none_iff_forall_ne_some.mpr fun ⟨n, rest⟩ hs => ?_
  obtain ⟨m, ⟨ds, _, rfl⟩, he⟩ := marker?_eq_some_iff.mp hs
  exact h (List.cons.inj he).1

/-- Only an opening bracket begins a marker. -/
theorem markers_append_of_not_mem (h : '[' ∉ a) (b : List Char) : markers (a ++ b) = markers b := by
  induction a with
  | nil => rfl
  | cons c a ih =>
    rw [List.mem_cons, not_or] at h
    rw [List.cons_append, markers_cons_of_eq_none (marker?_cons_of_ne (Ne.symm h.1)), ih h.2]

theorem markers_of_not_mem (h : '[' ∉ cs) : markers cs = [] := by
  have hm := markers_append_of_not_mem h []
  rwa [List.append_nil] at hm

/-- No marker begins within a marker. -/
theorem markers_of_isMarker {n : Nat} {m : List Char} (h : IsMarker n m) (rest : List Char) :
    markers (m ++ rest) = n :: markers rest := by
  have hm : marker? (m ++ rest) = some (n, rest) := marker?_eq_some_iff.mpr ⟨m, h, rfl⟩
  obtain ⟨ds, hn, rfl⟩ := h
  obtain ⟨hne, hd⟩ := digits_of_read hn
  have hb : '[' ∉ ds ++ [']', ']', ']'] := bracket_not_mem hd
  obtain ⟨d, ds, rfl⟩ := List.exists_cons_of_ne_nil hne
  have hd' : '[' ≠ d := fun he => hb (he ▸ List.mem_cons_self)
  -- Two brackets in front of a digit begin no marker.
  have hone (tail : List Char) : marker? ('[' :: d :: tail) = none := by
    simp [marker?, dropPrefix?, hd']
  have htwo (tail : List Char) : marker? ('[' :: '[' :: d :: tail) = none := by
    simp [marker?, dropPrefix?, hd']
  simp only [List.cons_append, List.nil_append] at hm hb ⊢
  rw [markers_cons_of_eq_some hm, markers_cons_of_eq_none (htwo _),
    markers_cons_of_eq_none (hone _), ← List.cons_append, markers_append_of_not_mem hb]

/-- The reference that a segment is. -/
def Segment.reference? : Segment → Option Nat
  | text _ => none
  | reference n => some n

theorem filterMap_consLiteral (c : Char) (segments : List Segment) :
    (consLiteral c segments).filterMap Segment.reference? =
      segments.filterMap Segment.reference? := by
  rcases segments with _ | ⟨_ | n, segments⟩ <;> rfl

theorem filterMap_withLiteral (cs : List Char) (segments : List Segment) :
    (withLiteral cs segments).filterMap Segment.reference? =
      segments.filterMap Segment.reference? := by
  induction cs with
  | nil => rfl
  | cons c cs ih => rw [← ih]; exact filterMap_consLiteral c (withLiteral cs segments)

/-- The markers of a text are the references that it decodes to. -/
theorem filterMap_decodeMarkers (cs : List Char) :
    (decodeMarkers cs).filterMap Segment.reference? = markers cs := by
  fun_induction decodeMarkers cs with
  | case1 => rfl
  | case2 c cs n rest hm ih =>
    obtain ⟨m, h, he⟩ := marker?_eq_some_iff.mp hm
    rw [he, markers_of_isMarker h, ← ih]
    rfl
  | case3 c cs hm ih => rw [filterMap_consLiteral, ih, markers_cons_of_eq_none hm]

/-! ### Texts in a row -/

theorem markers_sublist_cons (c : Char) (cs : List Char) :
    (markers cs).Sublist (markers (c :: cs)) := by
  rw [markers]
  split
  · exact List.sublist_cons_self _ _
  · exact List.Sublist.refl _

/-- A text has the markers of its ends. -/
theorem markers_sublist_of_suffix (h : a <:+ cs) : (markers a).Sublist (markers cs) := by
  obtain ⟨b, rfl⟩ := h
  induction b with
  | nil => exact List.Sublist.refl _
  | cons c b ih => exact ih.trans (markers_sublist_cons c (b ++ a))

theorem markerFree_of_markers_eq_nil (h : markers cs = []) : MarkerFree cs := by
  rintro n m hm ⟨before, after, rfl⟩
  have hs : (markers (m ++ after)).Sublist (markers (before ++ m ++ after)) :=
    markers_sublist_of_suffix ⟨before, (List.append_assoc before m after).symm⟩
  rw [h, markers_of_isMarker hm] at hs
  cases hs

/-- A text without markers is one literal. -/
theorem decodeMarkers_of_markers_eq_nil (h : markers cs = []) (hne : cs ≠ []) :
    decodeMarkers cs = [.text cs] :=
  decodeMarkers_literal hne (markerFree_of_markers_eq_nil h)

theorem marker?_append {n : Nat} {rest : List Char} (h : marker? a = some (n, rest))
    (b : List Char) : marker? (a ++ b) = some (n, rest ++ b) := by
  obtain ⟨m, hm, rfl⟩ := marker?_eq_some_iff.mp h
  exact marker?_eq_some_iff.mpr ⟨m, hm, List.append_assoc m rest b⟩

/-- Two texts in a row have the markers of both. -/
theorem markers_append_sublist (a b : List Char) :
    (markers a ++ markers b).Sublist (markers (a ++ b)) := by
  induction a with
  | nil => exact List.Sublist.refl _
  | cons c a ih =>
    cases h : marker? (c :: a) with
    | none =>
      rw [markers_cons_of_eq_none h]
      exact ih.trans (markers_sublist_cons c (a ++ b))
    | some p =>
      have hb : marker? (c :: (a ++ b)) = some (p.1, p.2 ++ b) := marker?_append h b
      rw [markers_cons_of_eq_some h, List.cons_append, List.cons_append,
        markers_cons_of_eq_some hb]
      exact ih.cons_cons p.1

/-- A marker begins in the first text and ends in the second. -/
def Straddled (a b : List Char) : Prop :=
  ∃ n part rest, part ≠ [] ∧ rest ≠ [] ∧ IsMarker n (part ++ rest) ∧ part <:+ a ∧ rest <+: b

theorem not_straddled_nil (b : List Char) : ¬ Straddled [] b := fun ⟨_, _, _, hp, _, _, hs, _⟩ =>
  hp (List.suffix_nil.mp hs)

/-- No marker goes on with a character that belongs to none. -/
theorem not_straddled_of_head? (h : ∀ c ∈ b.head?, isMarkerChar c = false) (a : List Char) :
    ¬ Straddled a b := by
  rintro ⟨n, part, rest, -, hr, hm, -, tail, rfl⟩
  obtain ⟨c, rest, rfl⟩ := List.exists_cons_of_ne_nil hr
  have hc : isMarkerChar c = true := hm.isMarkerChar (by simp)
  rw [h c rfl] at hc
  cases hc

theorem not_straddled_cons {c : Char} (h : isMarkerChar c = false) (a b : List Char) :
    ¬ Straddled a (c :: b) :=
  not_straddled_of_head? (fun d hd => by cases hd; exact h) a

/-- No marker goes on behind a character that belongs to none. -/
theorem not_straddled_of_getLast? {c : Char} (hl : a.getLast? = some c)
    (h : isMarkerChar c = false) (b : List Char) : ¬ Straddled a b := by
  rintro ⟨n, part, rest, hp, -, hm, ⟨before, rfl⟩, -⟩
  obtain ⟨part, d, rfl⟩ := (List.eq_nil_or_concat part).resolve_left hp
  obtain rfl : d = c := by simpa using hl
  have hd : isMarkerChar d = true := hm.isMarkerChar (by simp)
  rw [h] at hd
  cases hd

theorem Straddled.cons (h : Straddled a b) (c : Char) : Straddled (c :: a) b := by
  obtain ⟨n, part, rest, hp, hr, hm, hs, hb⟩ := h
  exact ⟨n, part, rest, hp, hr, hm, hs.trans (List.suffix_cons c a), hb⟩

/-- Unless a marker begins in one and ends in the other, two texts in a row have no other markers
than theirs. -/
theorem markers_append (h : ¬ Straddled a b) : markers (a ++ b) = markers a ++ markers b := by
  induction a with
  | nil => rfl
  | cons c a ih =>
    have ih := ih fun hs => h (hs.cons c)
    cases hc : marker? (c :: a) with
    | some p =>
      have hb : marker? (c :: (a ++ b)) = some (p.1, p.2 ++ b) := marker?_append hc b
      rw [markers_cons_of_eq_some hc, List.cons_append, List.cons_append,
        markers_cons_of_eq_some hb, ih]
    | none =>
      have hnot {n : Nat} {m x : List Char} (hm : IsMarker n m) : c :: a ≠ m ++ x := fun he => by
        cases hc.symm.trans (marker?_eq_some_iff.mpr ⟨m, hm, he⟩)
      have hnone : marker? (c :: (a ++ b)) = none := by
        refine Option.eq_none_iff_forall_ne_some.mpr fun ⟨n, r⟩ hs => ?_
        obtain ⟨m, hm, he⟩ := marker?_eq_some_iff.mp hs
        rw [← List.cons_append] at he
        rcases List.append_eq_append_iff.mp he with ⟨_ | ⟨d, x⟩, rfl, hb⟩ | ⟨x, hx, _⟩
        · exact hnot hm ((List.append_nil _).trans (List.append_nil _)).symm
        · exact h ⟨n, c :: a, d :: x, List.cons_ne_nil _ _, List.cons_ne_nil _ _, hm,
            List.suffix_refl _, r, hb.symm⟩
        · exact hnot hm hx
      rw [markers_cons_of_eq_none hc, List.cons_append, markers_cons_of_eq_none hnone, ih]

/-! ### Other characters -/

/-- Texts with the same characters of markers, in which runs of other characters are exchanged. -/
inductive Alike : List Char → List Char → Prop
  | nil : Alike [] []
  | char (c : Char) {cs ds : List Char} : Alike cs ds → Alike (c :: cs) (c :: ds)
  | gap {xs ys cs ds : List Char} : (∀ c ∈ xs, isMarkerChar c = false) →
      (∀ c ∈ ys, isMarkerChar c = false) → xs ≠ [] → ys ≠ [] → Alike cs ds →
      Alike (xs ++ cs) (ys ++ ds)

namespace Alike

theorem symm (h : Alike cs ds) : Alike ds cs := by
  induction h with
  | nil => exact .nil
  | char c _ ih => exact .char c ih
  | gap hx hy hne hne' _ ih => exact .gap hy hx hne' hne ih

/-- A beginning of characters of markers is common to both. -/
theorem starts {m : List Char} (h : Alike cs ds) (hm : ∀ c ∈ m, isMarkerChar c = true)
    (hp : m <+: cs) : m <+: ds := by
  induction h generalizing m with
  | nil => exact hp
  | char c _ ih =>
    rcases List.prefix_cons_iff.mp hp with rfl | ⟨m, rfl, hm'⟩
    · exact List.nil_prefix
    · exact List.cons_prefix_cons.mpr
        ⟨rfl, ih (fun d hd => hm d (List.mem_cons_of_mem c hd)) hm'⟩
  | @gap xs ys _ _ hx hy hne hne' _ ih =>
    obtain ⟨x, xs, rfl⟩ := List.exists_cons_of_ne_nil hne
    rcases List.prefix_cons_iff.mp hp with rfl | ⟨m, rfl, _⟩
    · exact List.nil_prefix
    · have hx : isMarkerChar x = false := hx x List.mem_cons_self
      rw [hm x List.mem_cons_self] at hx
      cases hx

theorem exists_marker?_eq_some (h : Alike cs ds) {n : Nat} {rest : List Char}
    (hm : marker? cs = some (n, rest)) : ∃ rest', marker? ds = some (n, rest') := by
  obtain ⟨m, him, rfl⟩ := marker?_eq_some_iff.mp hm
  obtain ⟨rest', rfl⟩ := h.starts (fun c hc => him.isMarkerChar hc) (List.prefix_append m rest)
  exact ⟨rest', marker?_eq_some_iff.mpr ⟨m, him, rfl⟩⟩

/-- Texts that are alike have the same markers. -/
theorem markers_eq (h : Alike cs ds) : markers cs = markers ds := by
  induction h with
  | nil => rfl
  | @char c cs ds h ih =>
    have hc : Alike (c :: cs) (c :: ds) := .char c h
    cases hm : marker? (c :: cs) with
    | some p =>
      obtain ⟨rest', hd⟩ := hc.exists_marker?_eq_some hm
      rw [markers_cons_of_eq_some hm, markers_cons_of_eq_some hd, ih]
    | none =>
      have hd : marker? (c :: ds) = none := by
        refine Option.eq_none_iff_forall_ne_some.mpr fun ⟨n, r⟩ hs => ?_
        obtain ⟨_, hs⟩ := hc.symm.exists_marker?_eq_some hs
        cases hm.symm.trans hs
      rw [markers_cons_of_eq_none hm, markers_cons_of_eq_none hd, ih]
  | @gap xs ys cs ds hx hy _ _ _ ih =>
    have hb {zs : List Char} (hz : ∀ c ∈ zs, isMarkerChar c = false) : '[' ∉ zs := fun hm =>
      absurd (hz _ hm) (by decide)
    rw [markers_append_of_not_mem (hb hx), markers_append_of_not_mem (hb hy), ih]

end Alike

/-! ### Blanks and ampersands -/

theorem isMarkerChar_of_isBlank {c : Char} (h : isBlank c = true) : isMarkerChar c = false := by
  refine Bool.eq_false_iff.mpr fun hm => ?_
  simp only [isMarkerChar, Bool.or_eq_true, beq_iff_eq] at hm
  rcases hm with (rfl | rfl) | hd
  · exact absurd h (by decide)
  · exact absurd h (by decide)
  · rw [isBlank_of_isDigit hd] at h
    cases h

private theorem alike_collapseFrom (cs : List Char) :
    Alike cs (collapseFrom false cs) ∧
      ∀ xs, xs ≠ [] → (∀ c ∈ xs, isBlank c = true) →
        Alike (xs ++ cs) (' ' :: collapseFrom true cs) := by
  have hspace : ∀ c ∈ [' '], isMarkerChar c = false := List.forall_mem_singleton.mpr rfl
  induction cs with
  | nil =>
    refine ⟨.nil, fun xs hne hx => ?_⟩
    exact .gap (fun c hc => isMarkerChar_of_isBlank (hx c hc)) hspace hne
      (List.cons_ne_nil _ _) .nil
  | cons c cs ih =>
    rw [collapseFrom, collapseFrom]
    by_cases hc : isBlank c = true
    · simp only [if_pos hc, Bool.false_eq_true, if_false, if_true]
      refine ⟨ih.2 [c] (List.cons_ne_nil _ _) (List.forall_mem_singleton.mpr hc),
        fun xs hne hx => ?_⟩
      rw [List.append_cons]
      refine ih.2 (xs ++ [c]) (by simp) (List.forall_mem_append.mpr ⟨hx, ?_⟩)
      exact List.forall_mem_singleton.mpr hc
    · simp only [if_neg hc]
      refine ⟨.char c ih.1, fun xs hne hx => ?_⟩
      exact .gap (fun d hd => isMarkerChar_of_isBlank (hx d hd)) hspace hne
        (List.cons_ne_nil _ _) (.char c ih.1)

@[simp] theorem markers_collapse (cs : List Char) : markers (collapse cs) = markers cs :=
  (alike_collapseFrom cs).1.markers_eq.symm

@[simp] theorem markers_escapeAmpersands (cs : List Char) :
    markers (escapeAmpersands cs) = markers cs := by
  have h : Alike cs (escapeAmpersands cs) := by
    induction cs with
    | nil => exact .nil
    | cons c cs ih =>
      by_cases hc : c = '&'
      · subst hc
        show Alike (['&'] ++ cs) (['&', 'a', 'm', 'p', ';'] ++ escapeAmpersands cs)
        exact .gap (by simp [isMarkerChar, isDigit]) (by simp [isMarkerChar, isDigit])
          (List.cons_ne_nil _ _) (List.cons_ne_nil _ _) ih
      · rw [escapeAmpersands_cons_of_ne hc]
        exact .char c ih
  exact h.markers_eq.symm

/-- Blanks in front and behind make no marker. -/
theorem markers_between_blanks {xs ys : List Char} (hx : ∀ c ∈ xs, isBlank c = true)
    (hy : ∀ c ∈ ys, isBlank c = true) (cs : List Char) :
    markers (xs ++ cs ++ ys) = markers cs := by
  have hb {zs : List Char} (hz : ∀ c ∈ zs, isBlank c = true) : '[' ∉ zs := fun hm =>
    absurd (hz _ hm) (by decide)
  have hs : ¬ Straddled cs ys := not_straddled_of_head? (fun c hc =>
    isMarkerChar_of_isBlank (hy c (List.mem_of_mem_head? hc))) cs
  rw [List.append_assoc, markers_append_of_not_mem (hb hx), markers_append hs,
    markers_of_not_mem (hb hy), List.append_nil]

@[simp] theorem markers_trim (cs : List Char) : markers (trim cs) = markers cs := by
  obtain ⟨front, back, hcs, hfront, hback⟩ := exists_eq_append_trim cs
  have h := markers_between_blanks hfront hback (trim cs)
  rwa [List.append_assoc, ← hcs, eq_comm] at h

@[simp] theorem markers_collapseEdges (cs : List Char) :
    markers (collapseEdges cs) = markers cs := by
  have hedge (b : Bool) : ∀ c ∈ (if b then [' '] else []), isBlank c = true := by
    cases b with
    | false => exact List.forall_mem_nil _
    | true => exact List.forall_mem_singleton.mpr rfl
  rw [← markers_trim cs, collapseEdges]
  split
  · rename_i h
    rw [h]
    rfl
  · exact markers_between_blanks (hedge _) (hedge _) (trim cs)

/-! ### Fragments -/

theorem markerFree_of_not_infix (h : ¬ ['[', '[', '['] <:+: cs) : MarkerFree cs := by
  rintro n m ⟨ds, _, rfl⟩ hi
  refine h (List.IsInfix.trans ?_ hi)
  rw [List.append_assoc]
  exact (List.prefix_append _ _).isInfix

/-- Without the brackets that begin a marker a text has none. -/
theorem markers_of_not_infix (h : ¬ ['[', '[', '['] <:+: cs) : markers cs = [] := by
  have hfree : MarkerFree cs := markerFree_of_not_infix h
  rw [← filterMap_decodeMarkers, decodeMarkers_of_markerFree hfree, filterMap_withLiteral]
  rfl

/-- Joined fragments have the markers of their slots, in their order. -/
theorem markers_joinFrom {fragments : List String}
    (h : ∀ s ∈ fragments, ¬ ['[', '[', '['] <:+: s.toList) {k : Nat}
    (hk : k + Fragments.slotCount fragments ≤ Numeral.word64) :
    markers (Fragments.joinFrom k fragments) =
      List.range' k (Fragments.slotCount fragments) := by
  induction fragments generalizing k with
  | nil => rfl
  | cons s fragments ih =>
    obtain ⟨hs, ht⟩ := List.forall_mem_cons.mp h
    have hfree := markerFree_of_not_infix hs
    cases fragments with
    | nil => exact markers_of_not_infix hs
    | cons t rest =>
      simp only [Fragments.slotCount, List.length_cons, Nat.add_sub_cancel] at hk ih ⊢
      have hm : IsMarker k (marker k) := isMarker_marker (by omega)
      have hstart : StartsMarker (marker k ++ Fragments.joinFrom (k + 1) (t :: rest)) :=
        ⟨k, marker k, _, hm, rfl⟩
      rw [Fragments.joinFrom, List.append_assoc, ← filterMap_decodeMarkers,
        decodeMarkers_append hfree hstart, filterMap_withLiteral, filterMap_decodeMarkers,
        markers_of_isMarker hm, ih ht (by omega), List.range'_succ]

end MarkupTemplate
