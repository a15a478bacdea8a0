import MarkupTemplate.Proofs.Template.Nodes

/-!
# Plain templates

A plain template has no comments and no raw-text elements, nothing stands in its void elements,
and its literals have no character that means anything in markup or begins a marker. Literals and
texts may follow each other in it. Merging makes one literal of literals in a row and one text of
texts in a row, which changes neither the markup nor the slots, and makes the template well-formed
as well (`MarkupTemplate.Template.Tidy`).

## Main definitions

* `MarkupTemplate.Template.Plain` — plain templates, as they may be written.
* `MarkupTemplate.Template.merge` — the same markup with merged literals and texts.
* `MarkupTemplate.Template.Tidy` — plain templates with merged literals and texts.

## Main results

* `MarkupTemplate.Template.WrittenAs.merge`, `MarkupTemplate.Template.values_merge`
* `MarkupTemplate.Template.Plain.tidy_merge`, `MarkupTemplate.Template.Tidy.trimmed`
-/

namespace MarkupTemplate

open Text

/-- The characters that are escaped when a text or a value is written. -/
def markupChars : List Char := ['&', '<', '>', '"']

/-- The characters that plain literals do without: also the bracket of markers and the mark of the
byte order. -/
def reservedChars : List Char := '[' :: '\uFEFF' :: markupChars

theorem solid_reservedChars : Solid reservedChars := by
  have h : reservedChars.all (! isBlank ·) = true := by decide
  exact fun c hc => by simpa using List.all_eq_true.mp h c hc

/-! ### Pieces -/

namespace Pieces

/-- Puts a piece in front, joining two literals that meet. -/
def consMerged : Piece → List Piece → List Piece
  | .literal cs, .literal ds :: ps => .literal (cs ++ ds) :: ps
  | p, ps => p :: ps

/-- The pieces with one literal for literals in a row. -/
def merge (ps : List Piece) : List Piece := ps.foldr consMerged []

theorem holed_consMerged (p : Piece) (ps : List Piece) :
    holed (consMerged p ps) = holed (p :: ps) := by
  rcases p, ps with ⟨cs | v, _ | ⟨ds | w, ps⟩⟩
  all_goals simp [consMerged, holed, Holed.ofChars]

@[simp] theorem holed_merge (ps : List Piece) : holed (merge ps) = holed ps := by
  induction ps with
  | nil => rfl
  | cons p ps ih =>
    rw [merge, List.foldr_cons, ← merge, holed_consMerged]
    cases p <;> simp [holed, ih]

theorem holed_append (ps qs : List Piece) : holed (ps ++ qs) = holed ps ++ holed qs := by
  induction ps with
  | nil => rfl
  | cons p ps ih => cases p <;> simp [holed, ih]

theorem values_consMerged (p : Piece) (ps : List Piece) :
    values (consMerged p ps) = values (p :: ps) := by
  rcases p, ps with ⟨cs | v, _ | ⟨ds | w, ps⟩⟩ <;> rfl

@[simp] theorem values_merge (ps : List Piece) : values (merge ps) = values ps := by
  induction ps with
  | nil => rfl
  | cons p ps ih =>
    rw [merge, List.foldr_cons, ← merge, values_consMerged]
    cases p <;> simp [values, ih]

theorem values_append (ps qs : List Piece) : values (ps ++ qs) = values ps ++ values qs := by
  induction ps with
  | nil => rfl
  | cons p ps ih => cases p <;> simp [values, ih]

theorem separated_merge (ps : List Piece) : Separated (merge ps) := by
  induction ps with
  | nil => trivial
  | cons p ps ih =>
    rw [merge, List.foldr_cons, ← merge]
    generalize merge ps = qs at ih
    rcases p, qs with ⟨cs | v, _ | ⟨ds | w, qs⟩⟩
    · trivial
    · rcases qs with _ | ⟨_ | w, qs⟩ <;> exact ih
    · exact ih
    · trivial
    · exact ih
    · exact ih

/-- Every literal of merged pieces is made of literals. -/
theorem avoids_merge {excluded : List Char} {ps : List Piece}
    (h : ∀ p ∈ ps, p.avoids excluded = true) : ∀ p ∈ merge ps, p.avoids excluded = true := by
  induction ps with
  | nil => exact List.forall_mem_nil _
  | cons p ps ih =>
    obtain ⟨hp, hps⟩ := List.forall_mem_cons.mp h
    have ih := ih hps
    rw [merge, List.foldr_cons, ← merge]
    generalize merge ps = qs at ih
    rw [consMerged.eq_def]
    split
    · rename_i cs ds qs
      obtain ⟨hd, hqs⟩ := List.forall_mem_cons.mp ih
      refine List.forall_mem_cons.mpr ⟨?_, hqs⟩
      rw [Piece.avoids] at hp hd ⊢
      rw [List.all_append, hp, hd]
      rfl
    · exact List.forall_mem_cons.mpr ⟨hp, ih⟩

/-- Without the bracket of markers merged pieces are well-formed. -/
theorem wellFormed_merge {excluded : List Char} (hb : '[' ∈ excluded) {ps : List Piece}
    (h : ∀ p ∈ ps, p.avoids excluded = true) : WellFormed excluded (merge ps) := by
  have hl (cs : List Char) (hc : .literal cs ∈ merge ps) (c : Char) (hx : c ∈ excluded) :
      c ∉ cs := by
    intro hm
    have ha := List.all_eq_true.mp (avoids_merge h _ hc) c hm
    simp [hx] at ha
  refine ⟨separated_merge ps, hl, fun cs hc n m hm hi => ?_⟩
  obtain ⟨ds, _, rfl⟩ := hm
  exact hl cs hc '[' hb (hi.subset (by simp))

theorem WellFormed.avoids {excluded : List Char} {ps : List Piece} (h : WellFormed excluded ps) :
    ∀ p ∈ ps, p.avoids excluded = true := by
  intro p hp
  cases p with
  | slot v => rfl
  | literal cs =>
    refine List.all_eq_true.mpr fun c hc => ?_
    have hx : c ∉ excluded := fun hx => h.plain cs hp c hx hc
    simp [hx]

theorem WellFormed.mono {excluded excluded' : List Char} {ps : List Piece}
    (h : WellFormed excluded ps) (hs : excluded' ⊆ excluded) : WellFormed excluded' ps :=
  ⟨h.separated, fun cs hc c hx => h.plain cs hc c (hs hx), h.markerFree⟩

end Pieces

/-! ### Templates -/

namespace Template

/-- No comments, no raw text, empty void elements, distinct attributes, and literals without
reserved characters. -/
def Plain : Template → Prop
  | nil => True
  | text ps next => (∀ p ∈ ps, p.avoids reservedChars = true) ∧ next.Plain
  | comment _ _ => False
  | element name attrs children next =>
    IsName name ∧ Dom.isRawText (String.ofList name) = false ∧
      (Dom.isVoid (String.ofList name) = true → children = nil) ∧
      (∀ attr ∈ attrs, IsName attr.1 ∧ ∀ p ∈ attr.2, p.avoids reservedChars = true) ∧
      (attrs.map Prod.fst).Nodup ∧ children.Plain ∧ next.Plain

/-- Plain templates in which literals and texts do not follow each other. -/
def Tidy : Template → Prop
  | nil => True
  | text ps next => Pieces.WellFormed reservedChars ps ∧ next.startsText = false ∧ next.Tidy
  | comment _ _ => False
  | element name attrs children next =>
    IsName name ∧ Dom.isRawText (String.ofList name) = false ∧
      (Dom.isVoid (String.ofList name) = true → children = nil) ∧
      (∀ attr ∈ attrs, IsName attr.1 ∧ Pieces.WellFormed reservedChars attr.2) ∧
      (attrs.map Prod.fst).Nodup ∧ children.Tidy ∧ next.Tidy

/-- Puts a text in front, joining two texts that meet. -/
def consText (ps : List Piece) : Template → Template
  | text qs next => text (Pieces.merge (ps ++ qs)) next
  | t => text (Pieces.merge ps) t

/-- The attributes with merged literals. -/
def mergeAttributes (attrs : List (List Char × List Piece)) : List (List Char × List Piece) :=
  attrs.map fun attr => (attr.1, Pieces.merge attr.2)

/-- The template with one text for texts in a row, and with merged literals. -/
def merge : Template → Template
  | nil => nil
  | text ps next => consText ps next.merge
  | comment content next => comment content next.merge
  | element name attrs children next =>
    element name (mergeAttributes attrs) children.merge next.merge

theorem WrittenAs.consText {t : Template} {m : Holed} (hm : t.WrittenAs m) (ps : List Piece) :
    (consText ps t).WrittenAs (Pieces.holed ps ++ m) := by
  have hcons (next : Template) {m : Holed} (hn : next.WrittenAs m) (ps : List Piece) :
      (Template.text (Pieces.merge ps) next).WrittenAs (Pieces.holed ps ++ m) := by
    rw [← Pieces.holed_merge]
    exact .text hn
  cases hm with
  | text hn =>
    rw [← List.append_assoc, ← Pieces.holed_append]
    exact hcons _ hn _
  | nil => exact hcons _ .nil ps
  | comment hn => exact hcons _ (.comment hn) ps
  | element hc hn => exact hcons _ (.element hc hn) ps
  | emptyTag hn => exact hcons _ (.emptyTag hn) ps

theorem holedAttributes_merge (attrs : List (List Char × List Piece)) :
    holedAttributes (mergeAttributes attrs) = holedAttributes attrs := by
  induction attrs with
  | nil => rfl
  | cons attr attrs ih =>
    rw [mergeAttributes] at ih
    simp [mergeAttributes, holedAttributes, ih]

/-- A merged template may be written in the same ways. -/
theorem WrittenAs.merge {t : Template} {m : Holed} (hm : t.WrittenAs m) : t.merge.WrittenAs m := by
  induction hm with
  | nil => exact .nil
  | text hn ih => exact ih.consText _
  | comment hn ih => exact .comment ih
  | element hc hn ihc ihn =>
    rw [← holedAttributes_merge]
    exact .element ihc ihn
  | emptyTag hn ih =>
    rw [← holedAttributes_merge]
    exact .emptyTag ih

theorem values_consText (ps : List Piece) (t : Template) :
    (consText ps t).values = Pieces.values ps ++ t.values := by
  cases t <;> simp [consText, values, Pieces.values_append]

/-- Merging does not change the slots. -/
theorem values_merge (t : Template) : t.merge.values = t.values := by
  induction t with
  | nil => rfl
  | text ps next ih => rw [merge, values_consText, ih, values]
  | comment content next ih => exact ih
  | element name attrs children next ihc ihn =>
    have ha : attributeValues (mergeAttributes attrs) = attributeValues attrs := by
      simp [attributeValues, mergeAttributes, List.flatMap_map]
    rw [merge, values, values, ihc, ihn, ha]

theorem tidy_consText {ps : List Piece} {t : Template}
    (hps : ∀ p ∈ ps, p.avoids reservedChars = true) (ht : t.Tidy) : (consText ps t).Tidy := by
  have hb : '[' ∈ reservedChars := List.mem_cons_self
  cases t with
  | nil => exact ⟨Pieces.wellFormed_merge hb hps, rfl, trivial⟩
  | text qs next =>
    obtain ⟨hqs, hn, hnext⟩ := ht
    have hall : ∀ p ∈ ps ++ qs, p.avoids reservedChars = true := fun p hp =>
      (List.mem_append.mp hp).elim (hps p) (hqs.avoids p)
    exact ⟨Pieces.wellFormed_merge hb hall, hn, hnext⟩
  | comment content next => exact ht.elim
  | element name attrs children next => exact ⟨Pieces.wellFormed_merge hb hps, rfl, ht⟩

/-- A merged plain template is tidy. -/
theorem Plain.tidy_merge {t : Template} (h : t.Plain) : t.merge.Tidy := by
  induction t with
  | nil => trivial
  | text ps next ih => exact tidy_consText h.1 (ih h.2)
  | comment content next => exact h.elim
  | element name attrs children next ihc ihn =>
    obtain ⟨hname, hraw, hvoid, hattrs, hnodup, hchildren, hnext⟩ := h
    refine ⟨hname, hraw, fun hv => by rw [hvoid hv]; rfl, fun attr ha => ?_, ?_, ihc hchildren,
      ihn hnext⟩
    · obtain ⟨a, hm, rfl⟩ := List.mem_map.mp ha
      exact ⟨(hattrs a hm).1, Pieces.wellFormed_merge List.mem_cons_self (hattrs a hm).2⟩
    · rwa [mergeAttributes, List.map_map]

/-! ### Tidy templates -/

theorem Tidy.wellFormed {t : Template} (h : t.Tidy) : t.WellFormed := by
  induction t with
  | nil => trivial
  | text ps next ih => exact ⟨h.1.mono (by decide), h.2.1, ih h.2.2⟩
  | comment content next => exact h.elim
  | element name attrs children next ihc ihn =>
    obtain ⟨hname, -, -, hattrs, hnodup, hchildren, hnext⟩ := h
    exact ⟨hname, fun attr ha => ⟨(hattrs attr ha).1, (hattrs attr ha).2.mono (by decide)⟩,
      hnodup, ihc hchildren, ihn hnext⟩

variable {f : List Char → List Char}

theorem Tidy.mapFirst {t : Template} (h : t.Tidy) (hf : Tame f) : (t.mapFirst f).Tidy := by
  cases t with
  | text ps next => exact ⟨h.1.mapHead hf solid_reservedChars, h.2⟩
  | _ => exact h

theorem Tidy.mapLast {t : Template} (h : t.Tidy) (hf : Tame f) : (t.mapLast f).Tidy := by
  fun_induction Template.mapLast f t with
  | case1 => exact h
  | case2 ps => exact ⟨h.1.mapLast hf solid_reservedChars, h.2⟩
  | case3 ps next _ ih => exact ⟨h.1, (startsText_mapLast f next).trans h.2.1, ih h.2.2⟩
  | case4 content next ih => exact h.elim
  | case5 name attrs children next ih =>
    obtain ⟨hname, hraw, hvoid, hattrs, hnodup, hchildren, hnext⟩ := h
    exact ⟨hname, hraw, hvoid, hattrs, hnodup, hchildren, ih hnext⟩

/-- Trimming keeps templates tidy. -/
theorem Tidy.trimmed {t : Template} (h : t.Tidy) : t.trimmed.Tidy :=
  (h.mapFirst tame_dropWhile).mapLast (tame_dropWhile.atEnd fun _ hc => hc.atEnd_dropWhile)

end Template

end MarkupTemplate
