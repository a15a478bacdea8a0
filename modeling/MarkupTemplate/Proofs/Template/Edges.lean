import Mathlib.Data.List.Infix
import MarkupTemplate.Proofs.Template.Written

/-!
# Blanks in written templates

Blanks are put in order in the markup, where the slots are markers. A marker is not blank at any
character, and neither are the brackets of tags, so what is done to the markup is done to its
literals: a change at an edge to the literal at this edge, and collapsing to every literal.

## Main definitions

* `MarkupTemplate.Tame` — changes of literals that bring in nothing but blanks.

## Main results

* `MarkupTemplate.Pieces.edge_mark`, `MarkupTemplate.Pieces.atEnd_mark`,
  `MarkupTemplate.Pieces.collapse_mark` — pieces with markers.
* `MarkupTemplate.Template.WrittenAs.exists_trim_mark` — the trimmed markup is a markup of the
  trimmed template.
-/

namespace MarkupTemplate

open Text

/-! ### Markers -/

theorem marker_ne_nil (k : Nat) : marker k ≠ [] := List.cons_ne_nil _ _

theorem mem_marker {k : Nat} {c : Char} (h : c ∈ marker k) :
    c = '[' ∨ c = ']' ∨ isDigit c = true := by
  rw [marker, List.mem_append, List.mem_append] at h
  rcases h with (h | h) | h
  · exact Or.inl (by simpa using h)
  · exact Or.inr (Or.inr (isDigit_of_mem_toDigits h))
  · exact Or.inr (Or.inl (by simpa using h))

theorem solid_marker (k : Nat) : Solid (marker k) := by
  intro c hc
  rcases mem_marker hc with rfl | rfl | h
  · rfl
  · rfl
  · exact isBlank_of_isDigit h

/-! ### Changes of literals -/

/-- A change of literals that brings in no marker and no character but blanks. -/
structure Tame (f : List Char → List Char) : Prop where
  markerFree : ∀ cs, MarkerFree cs → MarkerFree (f cs)
  mem : ∀ cs c, c ∈ f cs → isBlank c = false → c ∈ cs

theorem tame_dropWhile : Tame (List.dropWhile isBlank) where
  markerFree _ h := h.dropWhile
  mem _ _ hc _ := (List.dropWhile_sublist isBlank).mem hc

theorem Tame.atEnd {f : List Char → List Char} (hf : Tame f)
    (hm : ∀ cs, MarkerFree cs → MarkerFree (atEnd f cs)) : Tame (atEnd f) where
  markerFree := hm
  mem cs c hc hb := List.mem_reverse.mp (hf.mem cs.reverse c (List.mem_reverse.mp hc) hb)

theorem tame_collapseStart : Tame collapseStart where
  markerFree _ h := h.collapseStart
  mem cs c hc hb := by
    rcases List.mem_append.mp hc with hc | hc
    · split at hc
      · exact absurd hb (by rw [List.mem_singleton.mp hc]; decide)
      · cases hc
    · exact tame_dropWhile.mem cs c hc hb

theorem tame_collapse : Tame collapse where
  markerFree _ h := h.collapse
  mem cs c hc hb := by
    have hi : [c] <:+: collapse cs := (List.singleton_infix_iff c _).mpr hc
    have hs : Solid [c] := fun d hd => List.mem_singleton.mp hd ▸ hb
    exact (List.singleton_infix_iff c cs).mp (infix_of_infix_collapse hs (List.cons_ne_nil c []) hi)

/-! ### Pieces -/

namespace Pieces

theorem Separated.tail {p : Piece} {ps : List Piece} (h : Separated (p :: ps)) :
    Separated ps := by
  cases p with
  | slot v => exact h
  | literal cs =>
    rcases ps with _ | ⟨_ | v, ps⟩
    · exact trivial
    · exact h.elim
    · exact h

section Shape

variable (f : List Char → List Char) (ps : List Piece)

@[simp] theorem values_mapHead : values (mapHead f ps) = values ps := by
  rcases ps with _ | ⟨_ | v, ps⟩ <;> rfl

theorem mapLast_literal_slot (cs : List Char) (v : Value) :
    mapLast f (.literal cs :: .slot v :: ps) = .literal cs :: .slot v :: mapLast f ps := by
  rcases ps with _ | ⟨p, ps⟩ <;> simp [mapLast]

theorem mapLast_slot (v : Value) : mapLast f (.slot v :: ps) = .slot v :: mapLast f ps := by
  rcases ps with _ | ⟨p, ps⟩ <;> simp [mapLast]

@[simp] theorem values_mapLast : values (mapLast f ps) = values ps := by
  induction ps with
  | nil => rfl
  | cons p ps ih => rcases p, ps with ⟨_ | v, _ | ⟨q, ps⟩⟩ <;> simp_all [mapLast, values]

@[simp] theorem values_mapLiterals : values (mapLiterals f ps) = values ps := by
  induction ps with
  | nil => rfl
  | cons p ps ih => cases p <;> simp [mapLiterals, values, ih]

theorem separated_mapHead (h : Separated ps) : Separated (mapHead f ps) := by
  rcases ps with _ | ⟨_ | v, _ | ⟨_ | w, ps⟩⟩
  all_goals exact h

theorem separated_mapLast (h : Separated ps) : Separated (mapLast f ps) := by
  induction ps with
  | nil => exact trivial
  | cons p ps ih =>
    cases p with
    | slot v =>
      rw [mapLast_slot]
      exact ih h
    | literal cs =>
      rcases ps with _ | ⟨_ | v, ps⟩
      · exact trivial
      · exact h.elim
      · rw [mapLast_literal_slot, ← mapLast_slot]
        have hs : Separated (mapLast f (.slot v :: ps)) := ih h
        rw [mapLast_slot] at hs ⊢
        exact hs

theorem separated_mapLiterals (h : Separated ps) : Separated (mapLiterals f ps) := by
  induction ps with
  | nil => exact trivial
  | cons p ps ih =>
    cases p with
    | slot v => exact ih h
    | literal cs =>
      rcases ps with _ | ⟨_ | v, ps⟩
      · exact trivial
      · exact h.elim
      · exact ih h

end Shape

section Literals

variable {f : List Char → List Char} {ps : List Piece} {cs : List Char}

theorem mem_mapHead (h : .literal cs ∈ mapHead f ps) :
    .literal cs ∈ ps ∨ ∃ ds, .literal ds ∈ ps ∧ cs = f ds := by
  rcases ps with _ | ⟨ds | v, ps⟩
  · cases h
  · rcases List.mem_cons.mp h with h | h
    · exact Or.inr ⟨ds, List.mem_cons_self, Piece.literal.inj h⟩
    · exact Or.inl (List.mem_cons_of_mem _ h)
  · exact Or.inl h

theorem mem_mapLast (h : .literal cs ∈ mapLast f ps) :
    .literal cs ∈ ps ∨ ∃ ds, .literal ds ∈ ps ∧ cs = f ds := by
  induction ps with
  | nil => cases h
  | cons p ps ih =>
    rw [mapLast.eq_def] at h
    split at h
    · rename_i he
      cases he
    · rename_i ds he
      cases he
      exact Or.inr ⟨ds, List.mem_cons_self, Piece.literal.inj (List.mem_singleton.mp h)⟩
    · rename_i q qs _ he
      cases he
      rcases List.mem_cons.mp h with h | h
      · exact Or.inl (h ▸ List.mem_cons_self)
      · exact (ih h).imp (List.mem_cons_of_mem _) fun ⟨ds, hd, he⟩ =>
          ⟨ds, List.mem_cons_of_mem _ hd, he⟩

theorem mem_mapLiterals (h : .literal cs ∈ mapLiterals f ps) :
    ∃ ds, .literal ds ∈ ps ∧ cs = f ds := by
  induction ps with
  | nil => cases h
  | cons p ps ih =>
    cases p with
    | literal ds =>
      rcases List.mem_cons.mp h with h | h
      · exact ⟨ds, List.mem_cons_self, Piece.literal.inj h⟩
      · exact (ih h).imp fun _ => And.imp_left (List.mem_cons_of_mem _)
    | slot v =>
      rcases List.mem_cons.mp h with h | h
      · cases h
      · exact (ih h).imp fun _ => And.imp_left (List.mem_cons_of_mem _)

end Literals

namespace WellFormed

variable {f : List Char → List Char} {excluded : List Char} {ps : List Piece}

/-- Pieces that come from others by tame changes of some literals are well-formed as they are. -/
private theorem of_mem {qs : List Piece} (hf : Tame f) (hs : Solid excluded)
    (h : WellFormed excluded ps) (hq : Separated qs)
    (hm : ∀ cs, .literal cs ∈ qs → .literal cs ∈ ps ∨ ∃ ds, .literal ds ∈ ps ∧ cs = f ds) :
    WellFormed excluded qs where
  separated := hq
  plain cs hc c hx := by
    rcases hm cs hc with hp | ⟨ds, hp, rfl⟩
    · exact h.plain cs hp c hx
    · exact fun hi => h.plain ds hp c hx (hf.mem ds c hi (hs c hx))
  markerFree cs hc := by
    rcases hm cs hc with hp | ⟨ds, hp, rfl⟩
    · exact h.markerFree cs hp
    · exact hf.markerFree ds (h.markerFree ds hp)

theorem mapHead (h : WellFormed excluded ps) (hf : Tame f) (hs : Solid excluded) :
    WellFormed excluded (mapHead f ps) :=
  of_mem hf hs h (separated_mapHead f ps h.separated) fun _ => mem_mapHead

theorem mapLast (h : WellFormed excluded ps) (hf : Tame f) (hs : Solid excluded) :
    WellFormed excluded (mapLast f ps) :=
  of_mem hf hs h (separated_mapLast f ps h.separated) fun _ => mem_mapLast

theorem mapLiterals (h : WellFormed excluded ps) (hf : Tame f) (hs : Solid excluded) :
    WellFormed excluded (mapLiterals f ps) :=
  of_mem hf hs h (separated_mapLiterals f ps h.separated) fun _ hc => Or.inr (mem_mapLiterals hc)

end WellFormed

/-! ### Pieces with markers -/

section Mark

variable {f : List Char → List Char} {ps : List Piece} {k : Nat}

/-- Behind a literal stands a marker or what follows the pieces. -/
theorem startsSolid_mark_append {cs rest : List Char} (h : Separated (.literal cs :: ps))
    (hr : StartsSolid rest) : StartsSolid (mark k ps ++ rest) := by
  rcases ps with _ | ⟨_ | v, ps⟩
  · exact hr
  · exact h.elim
  · rw [mark_slot, List.append_assoc]
    exact (solid_marker k).startsSolid_append (marker_ne_nil k)

theorem startsSolid_mark {cs : List Char} (h : Separated (.literal cs :: ps)) :
    StartsSolid (mark k ps) := by
  have hs : StartsSolid (mark k ps ++ []) := startsSolid_mark_append h (by nofun)
  rwa [List.append_nil] at hs

/-- A change of the start of pieces is one of the literal there. -/
theorem edge_mark (hf : EdgeMap f) (h : Separated ps) {rest : List Char} (hr : StartsSolid rest) :
    f (mark k ps ++ rest) = mark k (mapHead f ps) ++ rest := by
  rcases ps with _ | ⟨cs | v, ps⟩
  · exact hf.eq_self hr
  · rw [mapHead, mark_literal, mark_literal, List.append_assoc,
      hf.append cs _ (Or.inr (startsSolid_mark_append h hr)), List.append_assoc]
  · rw [mapHead, mark_slot, List.append_assoc]
    · exact hf.eq_self ((solid_marker k).startsSolid_append (marker_ne_nil k))
    · nofun

/-- A change of the end of pieces is one of the literal there. -/
theorem atEnd_mark (hf : EdgeMap f) (h : Separated ps) :
    atEnd f (mark k ps) = mark k (mapLast (atEnd f) ps) := by
  induction ps generalizing k with
  | nil => simp [atEnd, hf.nil, mapLast]
  | cons p ps ih =>
    cases p with
    | slot v =>
      have hm : atEnd f (marker k ++ mark (k + 1) ps) = marker k ++ atEnd f (mark (k + 1) ps) :=
        hf.atEnd_solid_append (solid_marker k) (marker_ne_nil k) [] _
      rw [mapLast_slot, mark_slot, mark_slot, hm, ih h]
    | literal cs =>
      rcases ps with _ | ⟨_ | v, ps⟩
      · simp [mapLast]
      · exact h.elim
      · have hm : ∃ c ∈ mark k (.slot v :: ps), isBlank c = false :=
          ⟨'[', List.mem_cons_self, by decide⟩
        rw [mapLast_literal_slot, mark_literal, mark_literal, hf.atEnd_append _ _ (Or.inl hm),
          ih h, mapLast_slot]

/-- Pieces are collapsed literal by literal. -/
theorem collapse_mark (h : Separated ps) :
    collapse (mark k ps) = mark k (mapLiterals collapse ps) := by
  induction ps generalizing k with
  | nil => rfl
  | cons p ps ih =>
    cases p with
    | literal cs =>
      rw [mapLiterals, mark_literal, mark_literal, collapse_append (startsSolid_mark h),
        ih h.tail]
    | slot v =>
      rw [mapLiterals, mark_slot, mark_slot, collapse_solid_append (solid_marker k), ih h]

/-- The edges of a value that is not empty are those of its pieces. -/
theorem collapseEdges_mark (h : Separated ps) (hne : mark k ps ≠ []) :
    collapseEdges (mark k ps) = mark k (Template.normalValue ps) := by
  have hh : collapseStart (mark k ps ++ []) = mark k (mapHead collapseStart ps) ++ [] :=
    edge_mark edgeMap_collapseStart h (by nofun)
  rw [List.append_nil, List.append_nil] at hh
  rw [collapseEdges_eq hne, hh,
    atEnd_mark edgeMap_collapseStart (separated_mapHead collapseStart ps h)]
  rfl

end Mark

end Pieces

/-! ### Templates -/

namespace Template

variable {f : List Char → List Char}

theorem mapLast_text (f : List Char → List Char) (ps : List Piece) {next : Template}
    (h : next ≠ nil) : (text ps next).mapLast f = text ps (next.mapLast f) := by
  cases next with
  | nil => exact absurd rfl h
  | _ => rfl

namespace WrittenAs

variable {t : Template} {m : Holed}

/-- What is no text begins with a bracket. -/
theorem eq_nil_or_eq_cons (hm : t.WrittenAs m) (h : t.startsText = false) :
    (t = .nil ∧ m = []) ∨ ∃ m', m = some '<' :: m' := by
  cases hm with
  | nil => exact Or.inl ⟨rfl, rfl⟩
  | text => cases h
  | comment => exact Or.inr ⟨_, rfl⟩
  | element => exact Or.inr ⟨_, rfl⟩
  | emptyTag => exact Or.inr ⟨_, rfl⟩

/-- Behind a text stands nothing or a tag. -/
theorem startsSolid_mark (hm : t.WrittenAs m) (h : t.startsText = false) (k : Nat) :
    StartsSolid (m.mark k) := by
  obtain ⟨-, rfl⟩ | ⟨m', rfl⟩ := hm.eq_nil_or_eq_cons h
  · nofun
  · exact startsSolid_cons (by decide) _

/-- A tag is not blank. -/
theorem exists_solid_mark (hm : t.WrittenAs m) (h : t.startsText = false) (hne : t ≠ .nil)
    (k : Nat) : ∃ c ∈ m.mark k, isBlank c = false := by
  obtain ⟨rfl, -⟩ | ⟨m', rfl⟩ := hm.eq_nil_or_eq_cons h
  · exact absurd rfl hne
  · exact ⟨'<', List.mem_cons_self, by decide⟩

/-- A change of the start of the markup is one of the text there. -/
theorem exists_edge_mark (hf : EdgeMap f) (hm : t.WrittenAs m) (h : t.WellFormed) :
    ∃ m', (t.mapFirst f).WrittenAs m' ∧ ∀ k, f (m.mark k) = m'.mark k := by
  cases hs : t.startsText with
  | false =>
    have ht : t.mapFirst f = t := by cases t <;> first | rfl | cases hs
    exact ⟨m, ht.symm ▸ hm, fun k => hf.eq_self (hm.startsSolid_mark hs k)⟩
  | true =>
    cases hm with
    | text hn =>
      obtain ⟨hps, hs, -⟩ := h
      refine ⟨_, .text hn, fun k => ?_⟩
      rw [mark_text, mark_text, Pieces.edge_mark hf hps.separated (hn.startsSolid_mark hs _),
        Pieces.values_mapHead]
    | _ => cases hs

/-- The markup that follows a bracket has the end of the whole. -/
theorem atEnd_mark_append (hf : EdgeMap f) {tag : Holed} (ht : tag.getLast? = some (some '>'))
    (m : Holed) (k : Nat) :
    atEnd f ((tag ++ m).mark k) = tag.mark k ++ atEnd f (m.mark (k + tag.holes)) := by
  obtain ⟨front, rfl⟩ := List.getLast?_eq_some_iff.mp ht
  have hmark : Holed.mark k (front ++ [some '>']) = Holed.mark k front ++ ['>'] :=
    Holed.mark_append ..
  rw [Holed.mark_append, hmark]
  exact hf.atEnd_solid_append (List.forall_mem_singleton.mpr rfl) (List.cons_ne_nil _ _) _ _

/-- A change of the end of the markup is one of the text there. -/
theorem exists_atEnd_mark (hf : EdgeMap f) (hm : t.WrittenAs m) (h : t.WellFormed) :
    ∃ m', (t.mapLast (atEnd f)).WrittenAs m' ∧ ∀ k, atEnd f (m.mark k) = m'.mark k := by
  induction hm with
  | nil => exact ⟨[], .nil, fun k => by simp [atEnd, Holed.mark, hf.nil]⟩
  | @text ps next m hn ih =>
    obtain ⟨hps, hs, hnext⟩ := h
    -- What follows a text has a tag, and with it a character that is not blank.
    by_cases hne : next = .nil
    · subst hne
      cases hn
      refine ⟨_, .text .nil, fun k => ?_⟩
      rw [mark_text, mark_text, Holed.mark, Holed.mark, List.append_nil, List.append_nil,
        Pieces.atEnd_mark hf hps.separated]
    · obtain ⟨m', hm', he⟩ := ih hnext
      rw [mapLast_text _ ps hne]
      refine ⟨_, .text hm', fun k => ?_⟩
      rw [mark_text, mark_text, ← he]
      exact hf.atEnd_append _ _ (Or.inl (hn.exists_solid_mark hs hne _))
  | comment _ ih =>
    obtain ⟨m', hm', he⟩ := ih h.2
    refine ⟨_, .comment hm', fun k => ?_⟩
    rw [atEnd_mark_append hf (by simp [Holed.ofChars, List.getLast?_cons]), he,
      ← Holed.mark_append]
  | element hc _ _ ih =>
    obtain ⟨m', hm', he⟩ := ih h.2.2.2.2
    refine ⟨_, .element hc hm', fun k => ?_⟩
    rw [atEnd_mark_append hf (by simp [Holed.ofChars, List.getLast?_cons]), he,
      ← Holed.mark_append]
  | emptyTag _ ih =>
    obtain ⟨m', hm', he⟩ := ih h.2.2.2.2
    refine ⟨_, .emptyTag hm', fun k => ?_⟩
    rw [atEnd_mark_append hf (by simp [Holed.ofChars, List.getLast?_cons]), he,
      ← Holed.mark_append]

end WrittenAs

section Shape

variable (f : List Char → List Char) (t : Template)

@[simp] theorem values_mapFirst : (t.mapFirst f).values = t.values := by
  cases t <;> simp [mapFirst, values]

@[simp] theorem values_mapLast : (t.mapLast f).values = t.values := by
  fun_induction mapLast f t <;> simp_all [values]

@[simp] theorem startsText_mapLast : (t.mapLast f).startsText = t.startsText := by
  fun_cases mapLast f t <;> rfl

end Shape

theorem solid_lt : Solid ['<'] := by
  intro c hc
  rw [List.mem_singleton.mp hc]
  rfl

theorem solid_quotes : Solid ['<', '"'] := by
  intro c hc
  rcases List.mem_cons.mp hc with rfl | hc
  · rfl
  · rw [List.mem_singleton.mp hc]
    rfl

theorem WellFormed.mapFirst {t : Template} (h : t.WellFormed) (hf : Tame f) :
    (t.mapFirst f).WellFormed := by
  cases t with
  | nil => exact h
  | text ps next => exact ⟨h.1.mapHead hf solid_lt, h.2⟩
  | comment content next => exact h
  | element name attrs children next => exact h

theorem WellFormed.mapLast {t : Template} (h : t.WellFormed) (hf : Tame f) :
    (t.mapLast f).WellFormed := by
  fun_induction Template.mapLast f t with
  | case1 => exact h
  | case2 ps => exact ⟨h.1.mapLast hf solid_lt, h.2⟩
  | case3 ps next _ ih => exact ⟨h.1, (startsText_mapLast f next).trans h.2.1, ih h.2.2⟩
  | case4 content next ih => exact ⟨h.1, ih h.2⟩
  | case5 name attrs children next ih =>
    obtain ⟨hname, hattrs, hnodup, hchildren, hnext⟩ := h
    exact ⟨hname, hattrs, hnodup, hchildren, ih hnext⟩

/-! ### Trimming -/

/-- The trimmed markup is one that the trimmed template may be written as. -/
theorem WrittenAs.exists_trim_mark {t : Template} {m : Holed} (hm : t.WrittenAs m)
    (h : t.WellFormed) : ∃ m', t.trimmed.WrittenAs m' ∧ ∀ k, trim (m.mark k) = m'.mark k := by
  obtain ⟨m₁, hm₁, h₁⟩ := hm.exists_edge_mark edgeMap_dropWhile h
  obtain ⟨m₂, hm₂, h₂⟩ := hm₁.exists_atEnd_mark edgeMap_dropWhile (h.mapFirst tame_dropWhile)
  exact ⟨m₂, hm₂, fun k => by rw [trim_eq, h₁, h₂]⟩

theorem WellFormed.trimmed {t : Template} (h : t.WellFormed) : t.trimmed.WellFormed :=
  (h.mapFirst tame_dropWhile).mapLast (tame_dropWhile.atEnd fun _ hc => hc.atEnd_dropWhile)

@[simp] theorem values_trimmed (t : Template) : t.trimmed.values = t.values :=
  (values_mapLast _ _).trans (values_mapFirst _ t)

end Template

end MarkupTemplate
