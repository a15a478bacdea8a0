import MarkupTemplate.Text.Blank

/-!
# Blanks at the edges and in runs

Collapsing runs of blanks works on the two sides of a character that is not blank independently,
and a stretch without blanks is left as it is. Changes at the edges of a text (dropping the blanks
there, or writing one space for them) stop at the first character that is not blank, so they
concern only the outermost parts of a text.

## Main definitions

* `MarkupTemplate.Text.EdgeMap` — a change at the start of a text that stops at the first
  character that is not blank.
* `MarkupTemplate.Text.collapseStart`, `MarkupTemplate.Text.atEnd` — one space for the blanks at
  the start, and a change of the start done at the end.

## Main results

* `MarkupTemplate.Text.collapse_append`, `MarkupTemplate.Text.collapse_around`,
  `MarkupTemplate.Text.collapseEdges_around` — collapsing and concatenation.
* `MarkupTemplate.Text.infix_of_infix_collapse` — collapsing makes no new stretch without blanks.
* `MarkupTemplate.Text.collapseEdges_eq`, `MarkupTemplate.Text.trim_eq` — both edges in turn.
-/

namespace MarkupTemplate.Text

/-- Characters of which only one is in a class differ. -/
theorem ne_of_class {p : Char → Bool} {c d : Char} (h : p c = true) (hd : p d = false) : c ≠ d := by
  rintro rfl
  simp [h] at hd

/-- The text is empty or begins with a character that is not blank. -/
def StartsSolid (cs : List Char) : Prop := ∀ c ∈ cs.head?, isBlank c = false

/-- No character of the text is blank. -/
def Solid (cs : List Char) : Prop := ∀ c ∈ cs, isBlank c = false

theorem startsSolid_cons {c : Char} (h : isBlank c = false) (cs : List Char) :
    StartsSolid (c :: cs) := fun _ hd => Option.some.inj hd ▸ h

theorem Solid.reverse {cs : List Char} (h : Solid cs) : Solid cs.reverse := fun c hc =>
  h c (List.mem_reverse.mp hc)

theorem Solid.startsSolid_append {cs ds : List Char} (h : Solid cs) (hne : cs ≠ []) :
    StartsSolid (cs ++ ds) := by
  cases cs with
  | nil => exact absurd rfl hne
  | cons c cs => exact startsSolid_cons (h c List.mem_cons_self) (cs ++ ds)

/-! ### Runs of blanks -/

theorem collapseFrom_of_startsSolid {cs : List Char} (h : StartsSolid cs) (afterBlank : Bool) :
    collapseFrom afterBlank cs = collapse cs := by
  cases cs with
  | nil => rfl
  | cons c cs =>
    have hc : ¬ isBlank c = true := by simp [h c rfl]
    rw [collapse, collapseFrom, collapseFrom, if_neg hc, if_neg hc]

theorem collapseFrom_append {ds : List Char} (h : StartsSolid ds) (afterBlank : Bool)
    (cs : List Char) :
    collapseFrom afterBlank (cs ++ ds) = collapseFrom afterBlank cs ++ collapse ds := by
  induction cs generalizing afterBlank with
  | nil => exact collapseFrom_of_startsSolid h afterBlank
  | cons c cs ih =>
    rw [List.cons_append, collapseFrom, collapseFrom]
    split
    · split
      · exact ih true
      · rw [ih true, List.cons_append]
    · rw [ih false, List.cons_append]

/-- Collapsing does not reach across a character that is not blank. -/
theorem collapse_append {ds : List Char} (h : StartsSolid ds) (cs : List Char) :
    collapse (cs ++ ds) = collapse cs ++ collapse ds := collapseFrom_append h false cs

theorem collapse_solid_append {cs : List Char} (h : Solid cs) (ds : List Char) :
    collapse (cs ++ ds) = cs ++ collapse ds := by
  induction cs with
  | nil => rfl
  | cons c cs ih =>
    obtain ⟨hc, hs⟩ := List.forall_mem_cons.mp h
    rw [collapse, List.cons_append, collapseFrom, if_neg (by simp [hc]), List.cons_append]
    exact congrArg (c :: ·) (ih hs)

/-- Collapsing works on the two sides of a stretch without blanks by themselves. -/
theorem collapse_around {m : List Char} (hm : Solid m) (hne : m ≠ []) (before after : List Char) :
    collapse (before ++ m ++ after) = collapse before ++ m ++ collapse after := by
  rw [List.append_assoc, collapse_append (hm.startsSolid_append hne), collapse_solid_append hm,
    List.append_assoc]

private theorem prefix_of_prefix_collapse {cs m : List Char} (hm : Solid m)
    (h : m <+: collapse cs) : m <+: cs := by
  induction cs generalizing m with
  | nil => exact h
  | cons c cs ih =>
    rw [collapse, collapseFrom] at h
    split at h
    · rcases List.prefix_cons_iff.mp h with rfl | ⟨m, rfl, _⟩
      · exact List.nil_prefix
      · exact absurd (hm ' ' List.mem_cons_self) (by decide)
    · rcases List.prefix_cons_iff.mp h with rfl | ⟨m, rfl, hp⟩
      · exact List.nil_prefix
      · exact List.cons_prefix_cons.mpr ⟨rfl, ih (fun d hd => hm d (List.mem_cons_of_mem c hd)) hp⟩

private theorem infix_of_infix_collapseFrom {cs m : List Char} (hm : Solid m) (hne : m ≠ [])
    (afterBlank : Bool) (h : m <:+: collapseFrom afterBlank cs) : m <:+: cs := by
  induction cs generalizing afterBlank with
  | nil => exact h
  | cons c cs ih =>
    rw [collapseFrom] at h
    split at h
    · split at h
      · exact List.infix_cons (ih true h)
      · rcases List.infix_cons_iff.mp h with hp | hi
        · rcases List.prefix_cons_iff.mp hp with rfl | ⟨m, rfl, _⟩
          · exact absurd rfl hne
          · exact absurd (hm ' ' List.mem_cons_self) (by decide)
        · exact List.infix_cons (ih true hi)
    · rcases List.infix_cons_iff.mp h with hp | hi
      · rcases List.prefix_cons_iff.mp hp with rfl | ⟨m, rfl, ht⟩
        · exact absurd rfl hne
        · have hs : Solid m := fun d hd => hm d (List.mem_cons_of_mem c hd)
          exact (List.cons_prefix_cons.mpr ⟨rfl, prefix_of_prefix_collapse hs ht⟩).isInfix
      · exact List.infix_cons (ih false hi)

/-- A stretch without blanks in a collapsed text was there before. -/
theorem infix_of_infix_collapse {cs m : List Char} (hm : Solid m) (hne : m ≠ [])
    (h : m <:+: collapse cs) : m <:+: cs := infix_of_infix_collapseFrom hm hne false h

private theorem mem_collapseFrom {c : Char} {cs : List Char} (afterBlank : Bool)
    (h : c ∈ collapseFrom afterBlank cs) : c = ' ' ∨ c ∈ cs := by
  induction cs generalizing afterBlank with
  | nil => cases h
  | cons d cs ih =>
    have hrest {b : Bool} (h : c ∈ collapseFrom b cs) : c = ' ' ∨ c ∈ d :: cs :=
      (ih b h).imp_right (List.mem_cons_of_mem d)
    rw [collapseFrom] at h
    split at h
    · split at h
      · exact hrest h
      · exact (List.mem_cons.mp h).elim .inl hrest
    · exact (List.mem_cons.mp h).elim (fun he => .inr (he ▸ List.mem_cons_self)) hrest

/-- Collapsing brings in no character but spaces. -/
theorem mem_collapse {c : Char} {cs : List Char} (h : c ∈ collapse cs) : c = ' ' ∨ c ∈ cs :=
  mem_collapseFrom false h

theorem collapse_ne_nil {cs : List Char} (h : cs ≠ []) : collapse cs ≠ [] := by
  cases cs with
  | nil => exact absurd rfl h
  | cons c cs =>
    rw [collapse, collapseFrom]
    split <;> exact List.cons_ne_nil _ _

/-! ### Edges -/

/-- A change at the start of texts that stops at the first character that is not blank. -/
structure EdgeMap (f : List Char → List Char) : Prop where
  nil : f [] = []
  append : ∀ cs ds, (∃ c ∈ cs, isBlank c = false) ∨ StartsSolid ds → f (cs ++ ds) = f cs ++ ds

theorem EdgeMap.eq_self {f : List Char → List Char} (hf : EdgeMap f) {cs : List Char}
    (h : StartsSolid cs) : f cs = cs := by
  have ha := hf.append [] cs (Or.inr h)
  rwa [hf.nil] at ha

/-- One space for the blanks at the start. -/
def collapseStart (cs : List Char) : List Char :=
  (if cs.head?.any isBlank then [' '] else []) ++ cs.dropWhile isBlank

/-- A change of the start of texts, done at their end. -/
def atEnd (f : List Char → List Char) (cs : List Char) : List Char := (f cs.reverse).reverse

theorem edgeMap_dropWhile : EdgeMap (List.dropWhile isBlank) where
  nil := rfl
  append cs ds h := by
    induction cs with
    | nil =>
      cases ds with
      | nil => rfl
      | cons d ds =>
        rcases h with ⟨_, hm, _⟩ | h
        · cases hm
        · rw [List.nil_append, List.dropWhile_cons_of_neg (by simp [h d rfl])]
          rfl
    | cons c cs ih =>
      by_cases hc : isBlank c = true
      · rw [List.cons_append, List.dropWhile_cons_of_pos hc, List.dropWhile_cons_of_pos hc]
        refine ih (h.imp_left ?_)
        rintro ⟨d, hd, hs⟩
        rcases List.mem_cons.mp hd with rfl | hd
        · exact absurd hc (by simp [hs])
        · exact ⟨d, hd, hs⟩
      · rw [List.cons_append, List.dropWhile_cons_of_neg hc, List.dropWhile_cons_of_neg hc]
        rfl

theorem edgeMap_collapseStart : EdgeMap collapseStart where
  nil := rfl
  append cs ds h := by
    rw [collapseStart, collapseStart, edgeMap_dropWhile.append cs ds h, List.append_assoc]
    cases cs with
    | cons c cs => rfl
    | nil =>
      rcases h with ⟨_, hm, _⟩ | h
      · cases hm
      · cases ds with
        | nil => rfl
        | cons d ds => simp [h d rfl]

/-- A change of the end stops at the last character that is not blank. -/
theorem EdgeMap.atEnd_append {f : List Char → List Char} (hf : EdgeMap f) (cs ds : List Char)
    (h : (∃ c ∈ ds, isBlank c = false) ∨ StartsSolid cs.reverse) :
    atEnd f (cs ++ ds) = cs ++ atEnd f ds := by
  rw [atEnd, List.reverse_append, hf.append _ _ (h.imp_left fun ⟨c, hc, hs⟩ =>
    ⟨c, List.mem_reverse.mpr hc, hs⟩), List.reverse_append, List.reverse_reverse]
  rfl

/-- A change of the end stops at a stretch without blanks. -/
theorem EdgeMap.atEnd_solid_append {f : List Char → List Char} (hf : EdgeMap f) {m : List Char}
    (hm : Solid m) (hne : m ≠ []) (before after : List Char) :
    atEnd f (before ++ m ++ after) = before ++ m ++ atEnd f after := by
  refine hf.atEnd_append (before ++ m) after (Or.inr ?_)
  rw [List.reverse_append]
  exact hm.reverse.startsSolid_append (List.reverse_ne_nil_iff.mpr hne)

theorem collapseStart_ne_nil {cs : List Char} (h : cs ≠ []) : collapseStart cs ≠ [] := by
  cases cs with
  | nil => exact absurd rfl h
  | cons c cs =>
    by_cases hc : isBlank c = true
    · simp [collapseStart, hc]
    · simp [collapseStart, hc]

theorem atEnd_collapseStart_ne_nil {cs : List Char} (h : cs ≠ []) : atEnd collapseStart cs ≠ [] :=
  List.reverse_ne_nil_iff.mpr (collapseStart_ne_nil (List.reverse_ne_nil_iff.mpr h))

theorem atEnd_collapseStart (cs : List Char) :
    atEnd collapseStart cs = atEnd (List.dropWhile isBlank) cs ++
      (if cs.getLast?.any isBlank then [' '] else []) := by
  rw [atEnd, collapseStart, List.reverse_append, List.head?_reverse]
  split <;> rfl

theorem trim_eq (cs : List Char) :
    trim cs = atEnd (List.dropWhile isBlank) (cs.dropWhile isBlank) := rfl

theorem isPrefix_dropWhileEnd (p : Char → Bool) (cs : List Char) : dropWhileEnd p cs <+: cs := by
  rw [dropWhileEnd, ← List.reverse_suffix, List.reverse_reverse]
  exact List.dropWhile_suffix p

theorem isInfix_trim (cs : List Char) : trim cs <:+: cs :=
  (isPrefix_dropWhileEnd isBlank _).isInfix.trans (List.dropWhile_suffix isBlank).isInfix

theorem startsSolid_dropWhile (cs : List Char) : StartsSolid (cs.dropWhile isBlank) := fun c hc =>
  by simpa [Option.mem_def.mp hc] using List.head?_dropWhile_not isBlank cs

/-- A text without blanks at its ends is left as it is. -/
theorem trim_of_startsSolid {cs : List Char} (h : StartsSolid cs) (hr : StartsSolid cs.reverse) :
    trim cs = cs := by
  rw [trim_eq, edgeMap_dropWhile.eq_self h, atEnd, edgeMap_dropWhile.eq_self hr,
    List.reverse_reverse]

theorem Solid.startsSolid {cs : List Char} (h : Solid cs) : StartsSolid cs := fun c hc =>
  h c (List.mem_of_mem_head? hc)

theorem trim_of_solid {cs : List Char} (h : Solid cs) : trim cs = cs :=
  trim_of_startsSolid h.startsSolid h.reverse.startsSolid

/-- Trimming takes blanks away from the two ends. -/
theorem exists_eq_append_trim (cs : List Char) :
    ∃ front back, cs = front ++ (trim cs ++ back) ∧ (∀ c ∈ front, isBlank c = true) ∧
      ∀ c ∈ back, isBlank c = true := by
  have hb (ds : List Char) : ∀ c ∈ ds.takeWhile isBlank, isBlank c = true :=
    List.all_eq_true.mp List.all_takeWhile
  refine ⟨cs.takeWhile isBlank, ((cs.dropWhile isBlank).reverse.takeWhile isBlank).reverse, ?_,
    hb cs, fun c hc => hb _ c (List.mem_reverse.mp hc)⟩
  rw [trim, dropWhileEnd, ← List.reverse_append, List.takeWhile_append_dropWhile,
    List.reverse_reverse, List.takeWhile_append_dropWhile]

theorem startsSolid_reverse_trim (cs : List Char) : StartsSolid (trim cs).reverse := by
  rw [trim, dropWhileEnd, List.reverse_reverse]
  exact startsSolid_dropWhile _

theorem startsSolid_trim (cs : List Char) : StartsSolid (trim cs) := by
  intro c hc
  obtain ⟨ds, hd⟩ := isPrefix_dropWhileEnd isBlank (cs.dropWhile isBlank)
  refine startsSolid_dropWhile cs c ?_
  rw [← hd, List.head?_append, show dropWhileEnd isBlank (cs.dropWhile isBlank) = trim cs from rfl,
    Option.mem_def.mp hc]
  rfl

@[simp] theorem trim_trim (cs : List Char) : trim (trim cs) = trim cs :=
  trim_of_startsSolid (startsSolid_trim cs) (startsSolid_reverse_trim cs)

theorem mem_collapseEdges {c : Char} {cs : List Char} (h : c ∈ collapseEdges cs) :
    c = ' ' ∨ c ∈ cs := by
  have hspace (b : Bool) (h : c ∈ if b then [' '] else []) : c = ' ' := by
    cases b with
    | false => cases h
    | true => exact List.mem_singleton.mp h
  rw [collapseEdges] at h
  split at h
  · exact .inl (List.mem_singleton.mp h)
  · rcases List.mem_append.mp h with h | h
    · rcases List.mem_append.mp h with h | h
      · exact .inl (hspace _ h)
      · exact .inr ((isInfix_trim cs).subset h)
    · exact .inl (hspace _ h)

theorem collapseEdges_ne_nil (cs : List Char) : collapseEdges cs ≠ [] := by
  rw [collapseEdges]
  split
  · exact List.cons_ne_nil _ _
  · rename_i hc
    exact List.append_ne_nil_of_left_ne_nil (List.append_ne_nil_of_right_ne_nil _ hc) _

/-- A blank value becomes one space. -/
theorem collapseEdges_of_isBlank {cs : List Char} (h : ∀ c ∈ cs, isBlank c = true) :
    collapseEdges cs = [' '] := by
  have hdrop : (cs ++ []).dropWhile isBlank = [] := List.dropWhile_append_of_pos h
  rw [collapseEdges, trim, ← List.append_nil cs, hdrop]
  rfl

/-- The two edges of a value are changed one after the other, unless it is empty. -/
theorem collapseEdges_eq {cs : List Char} (h : cs ≠ []) :
    collapseEdges cs = atEnd collapseStart (collapseStart cs) := by
  rw [collapseEdges, trim_eq, collapseStart]
  cases hd : cs.dropWhile isBlank with
  | nil =>
    have hb : cs.head?.any isBlank = true := by
      cases cs with
      | nil => exact absurd rfl h
      | cons c cs =>
        refine Bool.not_eq_false _ |>.mp fun hc => ?_
        have hc : ¬ isBlank c = true := ne_true_of_eq_false hc
        rw [List.dropWhile_cons_of_neg hc] at hd
        cases hd
    rw [if_pos hb]
    rfl
  | cons d ds =>
    have hsolid : isBlank d = false := startsSolid_dropWhile cs d (by rw [hd]; rfl)
    have hlast : cs.getLast? = (d :: ds).getLast? := by
      rw [← List.takeWhile_append_dropWhile (p := isBlank) (l := cs), hd, List.getLast?_append]
      rfl
    have hcore : atEnd (List.dropWhile isBlank) (d :: ds) =
        d :: atEnd (List.dropWhile isBlank) ds :=
      edgeMap_dropWhile.atEnd_append [d] ds (Or.inr (startsSolid_cons hsolid []))
    rw [edgeMap_collapseStart.atEnd_append _ _ (Or.inl ⟨d, List.mem_cons_self, hsolid⟩), hlast,
      atEnd_collapseStart, hcore]
    exact List.append_assoc _ _ _

/-- On the two sides of a stretch without blanks only the outer edges change. -/
theorem collapseEdges_around {m : List Char} (hm : Solid m) (hne : m ≠ [])
    (before after : List Char) :
    collapseEdges (before ++ m ++ after) =
      collapseStart before ++ m ++ atEnd collapseStart after := by
  have hvalue : before ++ m ++ after ≠ [] := by simp [hne]
  rw [collapseEdges_eq hvalue, List.append_assoc,
    edgeMap_collapseStart.append before _ (Or.inr (hm.startsSolid_append hne)),
    ← List.append_assoc, edgeMap_collapseStart.atEnd_solid_append hm hne]

end MarkupTemplate.Text
