import MarkupTemplate.Proofs.Suspension.AttemptLaws
import MarkupTemplate.Proofs.Template.Nodes
import MarkupTemplate.Rendering.Render

/-!
# Slots are filled with their own values

A text with markers for slots is decoded to pieces, and the pieces resolve to the text with the
values of the slots. This holds for the slots from any number on, so each part of a template can
be followed on its own, with the values that are left for it.

## Main results

* `MarkupTemplate.Pieces.resolveParts_mark` — decoding and resolving pieces with markers.
* `MarkupTemplate.Template.resolveAttributes_ofTexts` — the same for attributes, in which edges
  are collapsed.
-/

namespace MarkupTemplate

open Text

variable {values : List Value}

/-! ### Values in a row -/

theorem substitution_of_prefix {v : Value} {vs : List Value} {k : Nat}
    (h : v :: vs <+: values.drop k) : substitution values k = .ok v := by
  obtain ⟨rest, hr⟩ := h
  have hv : values[k]? = some v := by
    rw [← Nat.add_zero k, ← List.getElem?_drop, ← hr]
    rfl
  rw [substitution, hv]

theorem prefix_drop_of_append {us vs : List Value} {k : Nat} (h : us ++ vs <+: values.drop k) :
    vs <+: values.drop (k + us.length) := by
  obtain ⟨rest, hr⟩ := h
  refine ⟨rest, ?_⟩
  rw [← List.drop_drop, ← hr, List.append_assoc, List.drop_left]

/-! ### Resolving pieces -/

theorem resolveParts_cons_eq_ok {p : Part} {ps : List Part} {s rest : String}
    (hp : p.resolve values = .ok s) (hps : resolveParts values ps = .ok rest) :
    resolveParts values (p :: ps) = .ok (s ++ rest) := by
  rw [resolveParts, hp, hps]
  rfl

theorem exists_of_resolveParts_cons {p : Part} {ps : List Part} {s : String}
    (h : resolveParts values (p :: ps) = .ok s) :
    ∃ a b, p.resolve values = .ok a ∧ resolveParts values ps = .ok b ∧ s = a ++ b := by
  rw [resolveParts, Except.bind_eq_ok_iff] at h
  obtain ⟨a, ha, h⟩ := h
  obtain ⟨b, hb, h⟩ := Except.bind_eq_ok_iff.mp h
  exact ⟨a, b, ha, hb, (Except.ok.inj h).symm⟩

theorem resolveParts_consLiteral {c : Char} {segments : List Segment} {s : String}
    (h : resolveParts values (segments.map Segment.part) = .ok s) :
    resolveParts values ((consLiteral c segments).map Segment.part) =
      .ok (String.singleton c ++ s) := by
  rw [consLiteral.eq_def]
  split
  · rename_i content segments
    obtain ⟨a, b, ha, hb, rfl⟩ := exists_of_resolveParts_cons h
    cases ha
    rw [← String.append_assoc, ← String.ofList_cons]
    exact resolveParts_cons_eq_ok rfl hb
  · exact resolveParts_cons_eq_ok rfl h

/-- A literal in front of segments is one in front of what they resolve to. -/
theorem resolveParts_withLiteral (cs : List Char) {segments : List Segment} {s : String}
    (h : resolveParts values (segments.map Segment.part) = .ok s) :
    resolveParts values ((withLiteral cs segments).map Segment.part) =
      .ok (String.ofList cs ++ s) := by
  induction cs with
  | nil => simpa [withLiteral] using h
  | cons c cs ih =>
    rw [String.ofList_cons, String.append_assoc]
    exact resolveParts_consLiteral ih

namespace Pieces

variable {excluded : List Char} {ps : List Piece} {k : Nat}

theorem startsMarker_mark {cs : List Char} (h : Separated (.literal cs :: ps))
    (hk : k + (Pieces.values ps).length ≤ Numeral.word64) : StartsMarker (mark k ps) := by
  rcases ps with _ | ⟨_ | v, ps⟩
  · exact trivial
  · exact h.elim
  · have hlt : k < Numeral.word64 := by
      simp only [Pieces.values, List.length_cons] at hk
      omega
    exact ⟨k, marker k, mark (k + 1) ps, isMarker_marker hlt, rfl⟩

/-- Pieces with markers are decoded, and the markers resolve to the values of the slots. -/
theorem resolveParts_mark (h : WellFormed excluded ps)
    (hk : k + (Pieces.values ps).length ≤ Numeral.word64)
    (hv : Pieces.values ps <+: values.drop k) :
    resolveParts values ((decodeMarkers (mark k ps)).map Segment.part) =
      .ok (String.ofList (output ps)) := by
  obtain ⟨hs, -, hm⟩ := h
  induction ps generalizing k with
  | nil =>
    rw [mark_nil, decodeMarkers_nil]
    rfl
  | cons p ps ih =>
    have hm' : ∀ cs, .literal cs ∈ ps → MarkerFree cs := fun cs hc =>
      hm cs (List.mem_cons_of_mem p hc)
    cases p with
    | literal cs =>
      rw [mark_literal, decodeMarkers_append (hm cs List.mem_cons_self) (startsMarker_mark hs hk),
        resolveParts_withLiteral cs (ih hk hv hs.tail hm'), ← String.ofList_append]
      rfl
    | slot v =>
      simp only [Pieces.values, List.length_cons] at hk
      have hlt : k < Numeral.word64 := by omega
      have hslot : (Part.reference k).resolve values = .ok v.text := by
        rw [Part.resolve, substitution_of_prefix hv]
        rfl
      have htail : Pieces.values ps <+: values.drop (k + 1) :=
        prefix_drop_of_append (show [v] ++ Pieces.values ps <+: values.drop k from hv)
      have hrest := ih (by omega) htail hs.tail hm'
      rw [mark_slot, decodeMarkers_of_isMarker (isMarker_marker hlt), List.map_cons]
      refine (resolveParts_cons_eq_ok hslot hrest).trans (congrArg Except.ok ?_)
      rw [output, String.ofList_append, String.ofList_toList]

/-- A text is collapsed together with its markers, and resolves to its collapsed literals with the
values of the slots between them. -/
theorem resolveParts_collapse_mark (h : WellFormed excluded ps) (hs : Solid excluded)
    (hk : k + (Pieces.values ps).length ≤ Numeral.word64)
    (hv : Pieces.values ps <+: values.drop k) :
    resolveParts values ((decodeMarkers (collapse (mark k ps))).map Segment.part) =
      .ok (String.ofList (output (mapLiterals collapse ps))) := by
  rw [collapse_mark h.separated]
  refine resolveParts_mark (h.mapLiterals tame_collapse hs) ?_ ?_
  · rwa [values_mapLiterals]
  · rwa [values_mapLiterals]

end Pieces

/-! ### Attributes -/

namespace Template

variable {excluded : List Char} {ps : List Piece}

theorem wellFormed_normalValue (h : Pieces.WellFormed excluded ps) (hs : Solid excluded) :
    Pieces.WellFormed excluded (normalValue ps) :=
  (h.mapHead tame_collapseStart hs).mapLast
    (tame_collapseStart.atEnd fun _ hc => hc.atEnd_collapseStart) hs

@[simp] theorem values_normalValue (ps : List Piece) :
    Pieces.values (normalValue ps) = Pieces.values ps :=
  (Pieces.values_mapLast _ _).trans (Pieces.values_mapHead _ ps)

/-- Pieces that amount to nothing have no output. -/
theorem output_normalValue_of_mark_eq_nil {k : Nat} (h : Pieces.Separated ps)
    (hm : Pieces.mark k ps = []) : Pieces.output (normalValue ps) = [] := by
  rcases ps with _ | ⟨cs | v, _ | ⟨_ | w, ps⟩⟩
  · rfl
  · rw [Pieces.mark_literal, Pieces.mark_nil, List.append_nil] at hm
    subst hm
    rfl
  · exact h.elim
  · rw [Pieces.mark_literal, Pieces.mark_slot, List.append_eq_nil_iff] at hm
    exact absurd (List.append_eq_nil_iff.mp hm.2).1 (marker_ne_nil k)
  all_goals exact absurd (List.append_eq_nil_iff.mp hm).1 (marker_ne_nil k)

theorem pieces_ofText {value : String} (h : value ≠ "") :
    (AttrValue.ofText value).pieces =
      (decodeMarkers (collapseEdges value.toList)).map Segment.part := by
  rw [AttrValue.ofText, if_neg h]
  split
  · rename_i part hp
    exact hp.symm
  · rfl

/-- An attribute value resolves to its pieces with values for slots. -/
theorem resolveParts_ofText (h : Pieces.WellFormed excluded ps) (hs : Solid excluded) {k : Nat}
    (hk : k + (Pieces.values ps).length ≤ Numeral.word64)
    (hv : Pieces.values ps <+: values.drop k) :
    resolveParts values (AttrValue.ofText (String.ofList (Pieces.mark k ps))).pieces =
      .ok (String.ofList (Pieces.output (normalValue ps))) := by
  by_cases hm : Pieces.mark k ps = []
  · rw [hm, output_normalValue_of_mark_eq_nil h.separated hm]
    rfl
  · have hne : String.ofList (Pieces.mark k ps) ≠ "" := fun he =>
      hm (String.ofList_eq_empty_iff.mp he)
    rw [pieces_ofText hne, String.toList_ofList, Pieces.collapseEdges_mark h.separated hm]
    exact Pieces.resolveParts_mark (wellFormed_normalValue h hs) (by rwa [values_normalValue])
      (by rwa [values_normalValue])

/-- The attributes with values for slots, as strings. -/
def filledAttributes (attrs : List (List Char × List Piece)) : List (String × String) :=
  attrs.map fun attr =>
    (String.ofList attr.1, String.ofList (Pieces.output (normalValue attr.2)))

/-- Attributes resolve to their values with values for slots. -/
theorem resolveAttributes_ofTexts {attrs : List (List Char × List Piece)} (hs : Solid excluded)
    (h : ∀ attr ∈ attrs, Pieces.WellFormed excluded attr.2) {k : Nat}
    (hk : k + (attributeValues attrs).length ≤ Numeral.word64)
    (hv : attributeValues attrs <+: values.drop k) :
    resolveAttributes values
        (Attributes.ofTexts (Markup.Builder.attributes (numberAttributes k attrs))) =
      .ok (filledAttributes attrs) := by
  induction attrs generalizing k with
  | nil => rfl
  | cons attr attrs ih =>
    obtain ⟨name, ps⟩ := attr
    have he : attributeValues ((name, ps) :: attrs) = Pieces.values ps ++ attributeValues attrs :=
      rfl
    rw [he, List.length_append] at hk
    rw [he] at hv
    have hps : Pieces.WellFormed excluded ps := h _ List.mem_cons_self
    have hvalue := resolveParts_ofText hps hs (by omega) ((List.prefix_append _ _).trans hv)
    have hrest := ih (fun a ha => h a (List.mem_cons_of_mem _ ha)) (by omega)
      (prefix_drop_of_append hv)
    rw [numberAttributes, Markup.Builder.attributes, List.map_cons, Attributes.ofTexts,
      List.map_cons, resolveAttributes, hvalue]
    rw [Markup.Builder.attributes, Attributes.ofTexts] at hrest
    rw [hrest]
    rfl

/-! ### Markup -/

private theorem join_filledAttributes (attrs : List (List Char × List Piece)) :
    String.join ((filledAttributes attrs).map fun attr =>
      " " ++ attr.1 ++ "=\"" ++ attr.2 ++ "\"") = String.ofList (attributeOutput attrs) := by
  induction attrs with
  | nil => rfl
  | cons attr attrs ih =>
    rw [filledAttributes] at ih
    rw [filledAttributes, List.map_cons, List.map_cons, String.join_cons, ih, ← String.toList_inj]
    simp [attributeOutput]

theorem startMarkup_filledAttributes (name : List Char) (attrs : List (List Char × List Piece)) :
    startMarkup (String.ofList name) (filledAttributes attrs) =
      String.ofList ('<' :: (name ++ attributeOutput attrs ++ ['>'])) := by
  rw [startMarkup, join_filledAttributes, ← String.toList_inj]
  simp

/-- An element is written around its output. -/
theorem elementMarkup_filledAttributes (name : List Char)
    (attrs : List (List Char × List Piece)) (content : List Char) :
    elementMarkup (String.ofList name) (filledAttributes attrs) (String.ofList content) =
      String.ofList (elementOutput name attrs content) := by
  rw [elementMarkup, isBlankText, String.toList_ofList, startMarkup_filledAttributes,
    elementOutput, ← String.toList_inj]
  split <;> simp

end Template

end MarkupTemplate
