import MarkupTemplate.Proofs.Markup.Tags
import MarkupTemplate.Template.OfMarkup

/-!
# Ampersands survive reading

Every ampersand of a template is escaped before it is read. Where reading unescapes, in texts and
in attribute values, this gives back what stood there, references included. Where it does not, in
comments, the ampersands are restored afterwards.

## Main results

* `MarkupTemplate.restoreAmpersands_escapeAmpersands_append`
* `MarkupTemplate.resume_escapeAmpersands`, `MarkupTemplate.unescape_escapeAmpersands`
-/

namespace MarkupTemplate

open Markup Text

@[simp] theorem escapeAmpersands_nil : escapeAmpersands [] = [] := rfl

@[simp] theorem escapeAmpersands_append (cs ds : List Char) :
    escapeAmpersands (cs ++ ds) = escapeAmpersands cs ++ escapeAmpersands ds :=
  List.flatMap_append

theorem escapeAmpersands_cons_of_ne {c : Char} (h : c ≠ '&') (cs : List Char) :
    escapeAmpersands (c :: cs) = c :: escapeAmpersands cs := by
  rw [escapeAmpersands, List.flatMap_cons, if_neg h]
  rfl

theorem escapeAmpersands_ampersand (cs : List Char) :
    escapeAmpersands ('&' :: cs) = '&' :: 'a' :: 'm' :: 'p' :: ';' :: escapeAmpersands cs := rfl

theorem escapeAmpersands_of_not_mem {cs : List Char} (h : '&' ∉ cs) :
    escapeAmpersands cs = cs := by
  induction cs with
  | nil => rfl
  | cons c cs ih =>
    rw [List.mem_cons, not_or] at h
    rw [escapeAmpersands_cons_of_ne (Ne.symm h.1), ih h.2]

/-- Escaping brings in no character but those of the reference. -/
theorem not_mem_escapeAmpersands {c : Char} (hc : c ∉ ['&', 'a', 'm', 'p', ';']) {cs : List Char}
    (h : c ∉ cs) : c ∉ escapeAmpersands cs := by
  intro hm
  obtain ⟨d, hd, hcd⟩ := List.mem_flatMap.mp hm
  split at hcd
  · exact hc hcd
  · exact h (List.mem_singleton.mp hcd ▸ hd)

/-- A beginning without ampersands is one of the raw text. -/
theorem prefix_of_prefix_escapeAmpersands {xs cs : List Char} (hx : '&' ∉ xs)
    (h : xs <+: escapeAmpersands cs) : xs <+: cs := by
  induction cs generalizing xs with
  | nil => exact h
  | cons c cs ih =>
    cases xs with
    | nil => exact List.nil_prefix
    | cons x xs =>
      obtain ⟨hne, hx⟩ := not_or.mp (mt List.mem_cons.mpr hx)
      by_cases hc : c = '&'
      · rw [hc, escapeAmpersands_ampersand] at h
        exact absurd (List.cons_prefix_cons.mp h).1.symm hne
      · rw [escapeAmpersands_cons_of_ne hc] at h
        obtain ⟨rfl, ht⟩ := List.cons_prefix_cons.mp h
        exact List.cons_prefix_cons.mpr ⟨rfl, ih hx ht⟩

/-- Escaping brings in no text that does not begin with a part of a reference. -/
theorem infix_of_infix_escapeAmpersands {x : Char} {xs cs : List Char}
    (hx : x ∉ ['&', 'a', 'm', 'p', ';']) (hxs : '&' ∉ xs)
    (h : x :: xs <:+: escapeAmpersands cs) : x :: xs <:+: cs := by
  induction cs with
  | nil => exact h
  | cons c cs ih =>
    by_cases hc : c = '&'
    · rw [hc, escapeAmpersands_ampersand] at h
      have hstep {d : Char} {ds : List Char} (hd : d ∈ ['&', 'a', 'm', 'p', ';'])
          (h : x :: xs <:+: d :: ds) : x :: xs <:+: ds :=
        (List.infix_cons_iff.mp h).resolve_left fun hp =>
          hx ((List.cons_prefix_cons.mp hp).1 ▸ hd)
      have h := hstep (by simp) (hstep (by simp) (hstep (by simp) (hstep (by simp)
        (hstep (by simp) h))))
      exact List.infix_cons (ih h)
    · rw [escapeAmpersands_cons_of_ne hc] at h
      rcases List.infix_cons_iff.mp h with hp | hi
      · obtain ⟨rfl, ht⟩ := List.cons_prefix_cons.mp hp
        exact (List.cons_prefix_cons.mpr
          ⟨rfl, prefix_of_prefix_escapeAmpersands hxs ht⟩).isInfix
      · exact List.infix_cons (ih hi)

theorem restoreAmpersands_cons_of_ne {c : Char} (h : c ≠ '&') (cs : List Char) :
    restoreAmpersands (c :: cs) = c :: restoreAmpersands cs := by
  rw [restoreAmpersands]
  exact fun _ he => absurd he h

theorem restoreAmpersands_append_of_not_mem {cs : List Char} (h : '&' ∉ cs) (ds : List Char) :
    restoreAmpersands (cs ++ ds) = cs ++ restoreAmpersands ds := by
  induction cs with
  | nil => rfl
  | cons c cs ih =>
    rw [List.mem_cons, not_or] at h
    rw [List.cons_append, restoreAmpersands_cons_of_ne (Ne.symm h.1), ih h.2, List.cons_append]

/-- Restoring undoes escaping, also in front of something else. -/
theorem restoreAmpersands_escapeAmpersands_append (cs ds : List Char) :
    restoreAmpersands (escapeAmpersands cs ++ ds) = cs ++ restoreAmpersands ds := by
  induction cs with
  | nil => rfl
  | cons c cs ih =>
    by_cases h : c = '&'
    · subst h
      rw [escapeAmpersands_ampersand]
      exact congrArg ('&' :: ·) ih
    · rw [escapeAmpersands_cons_of_ne h, List.cons_append, restoreAmpersands_cons_of_ne h, ih,
        List.cons_append]

/-- Text is read back as it was before escaping. -/
theorem resume_escapeAmpersands {whole : List Char} {mode : Mode} {b : Builder} {cs : List Char}
    (h : '<' ∉ cs) (rest : List Char) :
    resume whole mode b (escapeAmpersands cs ++ rest) = resume whole mode (b.addText cs) rest := by
  induction cs generalizing b with
  | nil => rfl
  | cons c cs ih =>
    rw [List.mem_cons, not_or] at h
    by_cases hc : c = '&'
    · subst hc
      rw [escapeAmpersands_ampersand]
      refine (resume_ampersand _).trans ((ih h.2).trans ?_)
      rw [Builder.addText_addText]
      rfl
    · have ht : ∀ d ∈ [c], isText d = true := fun d hd => by
        simp [isText, List.mem_singleton.mp hd, hc, Ne.symm h.1]
      rw [escapeAmpersands_cons_of_ne hc, List.cons_append]
      refine (resume_text ht _).trans ((ih h.2).trans ?_)
      rw [Builder.addText_addText]
      rfl

private theorem unescapeFrom_escapeAmpersands (size : Nat) (cs : List Char) :
    unescapeFrom size (escapeAmpersands cs) = .ok cs := by
  induction cs with
  | nil =>
    rw [escapeAmpersands_nil, unescapeFrom]
  | cons c cs ih =>
    by_cases h : c = '&'
    · subst h
      have hs : splitReference? isValueReference ('a' :: 'm' :: 'p' :: ';' :: escapeAmpersands cs) =
          some (['a', 'm', 'p'], escapeAmpersands cs) := rfl
      rw [escapeAmpersands_ampersand, unescapeFrom, if_pos rfl]
      split
      · rename_i body rest hr
        cases hs.symm.trans hr
        rw [ih]
        rfl
      · rename_i hr
        cases hs.symm.trans hr
    · rw [escapeAmpersands_cons_of_ne h, unescapeFrom, if_neg h, ih]
      rfl

/-- An attribute value is read back as it was before escaping. -/
theorem unescape_escapeAmpersands (cs : List Char) :
    Markup.unescape (escapeAmpersands cs) = .ok cs := unescapeFrom_escapeAmpersands _ cs

end MarkupTemplate
