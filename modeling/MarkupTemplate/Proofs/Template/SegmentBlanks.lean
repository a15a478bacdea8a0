import Mathlib.Data.List.ModifyLast
import MarkupTemplate.Proofs.Template.Decoding

/-!
# Blanks in decoded texts

Blanks are put in order before a text is decoded: those of a text node are collapsed, those of an
attribute value only at its two edges. No character of a marker is blank, and a literal ends where
a marker begins. So the order may be exchanged: what is done to the text is done to its literals,
by collapsing each of them, or the start of the first segment and the end of the last.

## Main definitions

* `MarkupTemplate.Segment.mapText` — a segment with its literal changed.

## Main results

* `MarkupTemplate.decodeMarkers_collapse`, `MarkupTemplate.decodeMarkers_collapseEdges` — the
  segments of a text whose blanks have been put in order.
* `MarkupTemplate.decodeMarkers_normalized` — both, with the markers and what stands around them.
-/

namespace MarkupTemplate

open Text

variable {cs : List Char} {f : List Char → List Char}

/-- The segment with its literal changed. A reference stays as it is. -/
def Segment.mapText (f : List Char → List Char) : Segment → Segment
  | .text content => .text (f content)
  | .reference n => .reference n

/-! ### All blanks -/

theorem StartsMarker.collapse (h : StartsMarker cs) : StartsMarker (collapse cs) := by
  rcases h.eq_nil_or_append with rfl | ⟨n, m, rest, hm, rfl⟩
  · trivial
  · rw [collapse_solid_append hm.solid]
    exact hm.startsMarker _

/-- A collapsed text has the segments of the text, each collapsed by itself. -/
theorem decodeMarkers_collapse (cs : List Char) :
    decodeMarkers (collapse cs) = (decodeMarkers cs).map (Segment.mapText collapse) := by
  induction cs using pieceInduction with
  | nil => rw [show collapse [] = [] from rfl, decodeMarkers_nil, List.map_nil]
  | literal content cs hne hfree hs ih =>
    rw [collapse_append hs.startsSolid,
      decodeMarkers_literal_append (collapse_ne_nil hne) hfree.collapse hs.collapse, ih,
      decodeMarkers_literal_append hne hfree hs, List.map_cons, Segment.mapText]
  | marker n m cs hm ih =>
    rw [collapse_solid_append hm.solid, decodeMarkers_of_isMarker hm, ih,
      decodeMarkers_of_isMarker hm, List.map_cons, Segment.mapText]

/-! ### The edges -/

/-- Blanks at the start of a text are those at the start of its first segment. -/
theorem decodeMarkers_collapseStart (cs : List Char) :
    decodeMarkers (collapseStart cs) =
      (decodeMarkers cs).modifyHead (Segment.mapText collapseStart) := by
  cases cs using pieceInduction with
  | nil => rw [edgeMap_collapseStart.nil, decodeMarkers_nil, List.modifyHead_nil]
  | literal content cs hne hfree hs =>
    rw [edgeMap_collapseStart.append content cs (Or.inr hs.startsSolid),
      decodeMarkers_literal_append (collapseStart_ne_nil hne) hfree.collapseStart hs,
      decodeMarkers_literal_append hne hfree hs, List.modifyHead_cons, Segment.mapText]
  | marker n m cs hm =>
    rw [edgeMap_collapseStart.eq_self (hm.startsMarker cs).startsSolid,
      decodeMarkers_of_isMarker hm, List.modifyHead_cons, Segment.mapText]

theorem modifyLast_mapText_reference (n : Nat) (segments : List Segment) :
    (Segment.reference n :: segments).modifyLast (Segment.mapText f) =
      .reference n :: segments.modifyLast (Segment.mapText f) := by
  cases segments with
  | nil => rfl
  | cons segment segments =>
    exact List.modifyLast_append_of_right_ne_nil _ [Segment.reference n] _ (List.cons_ne_nil _ _)

/-- Blanks at the end of a text are those at the end of its last segment. -/
theorem decodeMarkers_atEnd_collapseStart (cs : List Char) :
    decodeMarkers (atEnd collapseStart cs) =
      (decodeMarkers cs).modifyLast (Segment.mapText (atEnd collapseStart)) := by
  have hmarker {n : Nat} {m : List Char} (hm : IsMarker n m) (rest : List Char) :
      atEnd collapseStart (m ++ rest) = m ++ atEnd collapseStart rest :=
    edgeMap_collapseStart.atEnd_solid_append hm.solid hm.ne_nil [] rest
  induction cs using pieceInduction with
  | nil =>
    rw [show atEnd collapseStart [] = [] from rfl, decodeMarkers_nil]
    rfl
  | literal content cs hne hfree hs ih =>
    -- The literal is the last segment, or the marker behind it keeps it from being changed.
    rcases hs.eq_nil_or_append with rfl | ⟨n, m, rest, hm, rfl⟩
    · rw [List.append_nil, decodeMarkers_literal hne hfree,
        decodeMarkers_literal (atEnd_collapseStart_ne_nil hne) hfree.atEnd_collapseStart]
      rfl
    · have hsolid : ∃ c ∈ m ++ rest, isBlank c = false := by
        obtain ⟨c, hc⟩ := List.exists_mem_of_ne_nil m hm.ne_nil
        exact ⟨c, List.mem_append_left rest hc, hm.solid c hc⟩
      have hstart : StartsMarker (atEnd collapseStart (m ++ rest)) := by
        rw [hmarker hm]
        exact hm.startsMarker _
      have hsegments : decodeMarkers (m ++ rest) ≠ [] := by
        rw [decodeMarkers_of_isMarker hm]
        exact List.cons_ne_nil _ _
      rw [edgeMap_collapseStart.atEnd_append content _ (Or.inl hsolid),
        decodeMarkers_literal_append hne hfree hstart, ih,
        decodeMarkers_literal_append hne hfree hs]
      exact (List.modifyLast_append_of_right_ne_nil _ [.text content] _ hsegments).symm
  | marker n m cs hm ih =>
    rw [hmarker hm, decodeMarkers_of_isMarker hm, ih, decodeMarkers_of_isMarker hm,
      modifyLast_mapText_reference]

/-- A value with its edges collapsed has the segments of the value, the first one with its start
and the last one with its end collapsed. -/
theorem decodeMarkers_collapseEdges (h : cs ≠ []) :
    decodeMarkers (collapseEdges cs) =
      ((decodeMarkers cs).modifyHead (Segment.mapText collapseStart)).modifyLast
        (Segment.mapText (atEnd collapseStart)) := by
  rw [collapseEdges_eq h, decodeMarkers_atEnd_collapseStart, decodeMarkers_collapseStart]

/-! ### Both -/

/-- **Putting blanks in order and decoding may be exchanged.** A collapsed text is decoded to the
segments of the text, with every literal collapsed by itself. A value that is not empty, with its
edges collapsed, is decoded to the segments of the value, of which the first has the blanks at its
start and the last has those at its end made one space, if it is a literal. A blank value is one
space. Either way the text has the markers that it had, with their numbers, and what stands before
a marker and what stands behind it are put in order apart. -/
theorem decodeMarkers_normalized (cs : List Char) :
    decodeMarkers (collapse cs) = (decodeMarkers cs).map (Segment.mapText collapse) ∧
      (cs ≠ [] → decodeMarkers (collapseEdges cs) =
        ((decodeMarkers cs).modifyHead (Segment.mapText collapseStart)).modifyLast
          (Segment.mapText (atEnd collapseStart))) ∧
      ((∀ c ∈ cs, isBlank c = true) → decodeMarkers (collapseEdges cs) = [.text [' ']]) ∧
      markers (collapse cs) = markers cs ∧
      markers (collapseEdges cs) = markers cs ∧
      ∀ before n m after, IsMarker n m → cs = before ++ m ++ after →
        collapse cs = collapse before ++ m ++ collapse after ∧
          collapseEdges cs = collapseStart before ++ m ++ atEnd collapseStart after := by
  refine ⟨decodeMarkers_collapse cs, decodeMarkers_collapseEdges, fun hblank => ?_,
    markers_collapse cs, markers_collapseEdges cs, ?_⟩
  · have hfree : MarkerFree [' '] := markerFree_of_not_mem (by decide)
    rw [collapseEdges_of_isBlank hblank]
    exact decodeMarkers_literal (List.cons_ne_nil _ _) hfree
  · rintro before n m after hm rfl
    exact ⟨collapse_around hm.solid hm.ne_nil before after,
      collapseEdges_around hm.solid hm.ne_nil before after⟩

/-- A value with blanks at its edges, within a literal and beside a marker, and with the start of
a marker that does not end. -/
def spacedValue : List Char := "\t a  b  [[[07]]]  [[[8 \n".toList

/-- The blanks beside the marker stay in the value, and are one space on each side in the text. -/
theorem decodeMarkers_normalized_spacedValue :
    spacedValue ≠ [] ∧ (∀ c ∈ ['\t', '\n'], isBlank c = true) ∧
      IsMarker 7 "[[[07]]]".toList ∧
      spacedValue = "\t a  b  ".toList ++ "[[[07]]]".toList ++ "  [[[8 \n".toList ∧
      decodeMarkers (collapse spacedValue) =
        [.text " a b ".toList, .reference 7, .text " [[[8 ".toList] ∧
      decodeMarkers (collapseEdges spacedValue) =
        [.text " a  b  ".toList, .reference 7, .text "  [[[8 ".toList] ∧
      decodeMarkers (collapseEdges ['\t', '\n']) = [.text [' ']] ∧
      collapse spacedValue = " a b ".toList ++ "[[[07]]]".toList ++ " [[[8 ".toList ∧
      collapseEdges spacedValue = " a  b  ".toList ++ "[[[07]]]".toList ++ "  [[[8 ".toList := by
  have hne : spacedValue ≠ [] := by decide
  have hblank : ∀ c ∈ ['\t', '\n'], isBlank c = true :=
    List.forall_mem_cons.mpr ⟨rfl, List.forall_mem_singleton.mpr rfl⟩
  have hmarker : IsMarker 7 "[[[07]]]".toList := ⟨['0', '7'], by rfl, by rfl⟩
  have hvalue : spacedValue =
      "\t a  b  ".toList ++ "[[[07]]]".toList ++ "  [[[8 \n".toList := by rfl
  have hsegments : decodeMarkers spacedValue =
      [.text "\t a  b  ".toList, .reference 7, .text "  [[[8 \n".toList] := by
    rw [hvalue, List.append_assoc,
      decodeMarkers_literal_append (by decide) (markerFree_of_not_mem (by decide))
        (hmarker.startsMarker _),
      decodeMarkers_of_isMarker hmarker,
      decodeMarkers_literal (by decide) (markerFree_of_not_mem (by decide))]
  obtain ⟨hcollapse, hedges, -, -, -, haround⟩ := decodeMarkers_normalized spacedValue
  obtain ⟨-, -, hspace, -⟩ := decodeMarkers_normalized ['\t', '\n']
  rw [hsegments] at hcollapse hedges
  exact ⟨hne, hblank, hmarker, hvalue, hcollapse, hedges hne, hspace hblank,
    haround _ 7 _ _ hmarker hvalue⟩

end MarkupTemplate
