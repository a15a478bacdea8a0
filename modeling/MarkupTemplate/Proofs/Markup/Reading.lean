import MarkupTemplate.Markup.Forest
import MarkupTemplate.Proofs.Suspension.AttemptLaws

/-!
# Reading markup piece by piece

Reading is followed from one piece of a text to the next. What is left to do at a point is to read
the rest of the text and to build on what has been built (`MarkupTemplate.Markup.resume`). Each
kind of piece has one lemma that takes it from the text to the builder: a stretch of text, a
comment, a start tag and an end tag. Text may be taken in any portions, since a builder only
collects it until something else comes.

## Main definitions

* `MarkupTemplate.Markup.resume` — what comes of the rest of a text.
* `MarkupTemplate.Markup.Builder.extend` — several nodes added to a builder.
* `MarkupTemplate.Markup.Mirrors` — results that go together.

## Main results

* `MarkupTemplate.Markup.resume_text`, `MarkupTemplate.Markup.resume_ampersand`
* `MarkupTemplate.Markup.resume_comment`
-/

namespace MarkupTemplate.Markup

open Dom Text

/-! ### Builders -/

namespace Builder

variable (b : Builder)

@[simp] theorem addText_nil : b.addText [] = b := rfl

@[simp] theorem addText_addText (cs ds : List Char) :
    (b.addText cs).addText ds = b.addText (cs ++ ds) := by
  simp [addText]

@[simp] theorem pending_add (n : Node) : (b.add n).pending = b.pending := by
  rw [add]
  split <;> rfl

@[simp] theorem allowance_add (n : Node) : (b.add n).allowance = b.allowance := by
  rw [add]
  split <;> rfl

theorem flush_of_pending {b : Builder} (h : b.pending = []) : b.flush = b := by
  rw [flush, text, h]
  rfl

@[simp] theorem pending_flush : b.flush.pending = [] := by
  rw [flush]
  split
  · rename_i h
    exact List.reverse_eq_nil_iff.mp h
  · rfl

@[simp] theorem allowance_flush : b.flush.allowance = b.allowance := by
  rw [flush]
  split
  · rfl
  · exact b.allowance_add _

theorem eta_flush : (⟨b.flush.roots, b.flush.opened, [], b.allowance⟩ : Builder) = b.flush := by
  have hp := b.pending_flush
  have ha := b.allowance_flush
  generalize b.flush = c at hp ha ⊢
  obtain ⟨roots, opened, pending, allowance⟩ := c
  cases hp
  cases ha
  rfl

@[simp] theorem pending_push (n : Node) : (b.push n).pending = [] := by
  rw [push, pending_add, pending_flush]

@[simp] theorem allowance_push (n : Node) : (b.push n).allowance = b.allowance := by
  rw [push, allowance_add, allowance_flush]

theorem flush_push (n : Node) : (b.push n).flush = b.flush.add n :=
  flush_of_pending (b.pending_push n)

/-! The allowance has no part in what an operation does to the nodes. -/

theorem add_withAllowance (allowance : Nat) (n : Node) :
    { b with allowance }.add n = { b.add n with allowance } := by
  obtain ⟨roots, opened, pending, _⟩ := b
  cases opened <;> rfl

theorem flush_withAllowance (allowance : Nat) :
    { b with allowance }.flush = { b.flush with allowance } := by
  have ht : text { b with allowance } = b.text := rfl
  rw [flush, ht, flush]
  split
  · rfl
  · rw [add_withAllowance]

theorem push_withAllowance (allowance : Nat) (n : Node) :
    { b with allowance }.push n = { b.push n with allowance } := by
  rw [push, push, flush_withAllowance, add_withAllowance]

theorem openElement_withAllowance (allowance : Nat) (name : String)
    (attrs : KeyedList String String) :
    { b with allowance }.openElement name attrs = { b.openElement name attrs with allowance } := by
  rw [openElement, flush_withAllowance, openElement]

theorem close_withAllowance (allowance : Nat) (name : String) :
    { b with allowance }.close name = (b.close name).map fun c => { c with allowance } := by
  rw [close, flush_withAllowance, close]
  dsimp only
  split
  · rfl
  · rename_i e es _
    split
    · exact congrArg Except.ok (add_withAllowance { b.flush with opened := es } allowance e.node)
    · rfl

/-- The text that was collected becomes a node, if there is any. -/
theorem flush_addText {b : Builder} (h : b.pending = []) {cs : List Char} (hcs : cs ≠ []) :
    (b.addText cs).flush = b.add (.text (String.ofList cs)) := by
  have ht : (b.addText cs).text = cs := by
    rw [text_addText, text, h]
    rfl
  rw [flush, ht]
  split
  · exact absurd rfl hcs
  · rw [addText, add, add]
    cases b with
    | mk roots opened pending allowance =>
      cases h
      cases opened <;> rfl

/-- The builder with nodes added one after the other. -/
def extend (ns : List Node) (b : Builder) : Builder := ns.foldl (fun b n => b.add n) b

@[simp] theorem extend_cons (n : Node) (ns : List Node) :
    b.extend (n :: ns) = (b.add n).extend ns := rfl

theorem extend_append (ms ns : List Node) : b.extend (ms ++ ns) = (b.extend ms).extend ns :=
  List.foldl_append

theorem extend_opened (ns : List Node) (roots : List Node) (e : OpenElement)
    (es : List OpenElement) (pending : List Char) (allowance : Nat) :
    extend ns ⟨roots, e :: es, pending, allowance⟩ =
      ⟨roots, { e with children := ns.reverse ++ e.children } :: es, pending, allowance⟩ := by
  induction ns generalizing e with
  | nil => rfl
  | cons n ns ih =>
    rw [extend_cons]
    refine (ih { e with children := n :: e.children }).trans ?_
    rw [List.reverse_cons, List.append_assoc]
    rfl

end Builder

/-! ### The rest of a text -/

/-- What comes of the rest of the text `whole`, if a builder holds what was read before. -/
def resume (whole : List Char) (mode : Mode) (b : Builder) (cs : List Char) :
    Except ParseError (List Node) := do
  let (ts, stop?) := tokens cs
  let b ← b.run mode ts
  match stop? with
  | some stop => .error (.malformed (stop.position whole) stop.fault)
  | none => b.finish

theorem dropByteOrderMark_of_head? {cs : List Char} (h : cs.head? ≠ some '\uFEFF') :
    dropByteOrderMark cs = cs := by
  cases cs with
  | nil => rfl
  | cons c cs =>
    have hc : '\uFEFF' ≠ c := fun e => h (congrArg some e.symm)
    rw [dropByteOrderMark, dropPrefix?, if_neg hc]
    rfl

theorem dropByteOrderMark_suffix (cs : List Char) : dropByteOrderMark cs <:+ cs := by
  rw [dropByteOrderMark]
  cases h : dropPrefix? ['\uFEFF'] cs with
  | none => exact List.suffix_refl cs
  | some ds => exact ⟨['\uFEFF'], (dropPrefix?_eq_some_iff.mp h).symm⟩

theorem parseChars_eq_resume (mode : Mode) (cs : List Char) :
    parseChars mode cs =
      resume (dropByteOrderMark cs) mode .empty (dropByteOrderMark cs) := rfl

/-- With nothing open, the nodes are those outside all elements. -/
theorem Builder.exists_of_finish {b : Builder} {nodes : List Node} (h : b.finish = .ok nodes) :
    b.flush.opened = [] ∧ nodes = b.flush.roots.reverse := by
  rw [finish] at h
  split at h
  · rename_i ho
    cases h
    exact ⟨ho, rfl⟩
  · cases h

/-- Of a document all tokens are built into nodes, and nothing is left open. -/
theorem exists_of_parseChars {mode : Mode} {cs : List Char} {nodes : List Node}
    (h : parseChars mode cs = .ok nodes) :
    ∃ b, Builder.empty.run mode (tokens (dropByteOrderMark cs)).1 = .ok b ∧
      b.finish = .ok nodes := by
  simp only [parseChars] at h
  obtain ⟨b, hb, h⟩ := Except.bind_eq_ok_iff.mp h
  split at h
  · cases h
  · exact ⟨b, hb, h⟩

theorem tokens_of_readToken {c : Char} {cs rest : List Char} {t : Token}
    (h : readToken c cs = .ok (t, rest)) :
    tokens (c :: cs) = (t :: (tokens rest).1, (tokens rest).2) := by
  rw [tokens]
  split
  · rename_i hs
    cases h.symm.trans hs
  · rename_i hs
    cases h.symm.trans hs
    rfl

variable {whole : List Char} {mode : Mode} {b : Builder}

theorem resume_nil : resume whole mode b [] = b.finish := by
  rw [resume, tokens]
  rfl

/-- A token that can be read has its effect, and then the rest is read. -/
theorem resume_of_readToken {c : Char} {cs rest : List Char} {t : Token}
    (h : readToken c cs = .ok (t, rest)) :
    resume whole mode b (c :: cs) = (b.step mode t).bind fun b => resume whole mode b rest := by
  rw [resume, tokens_of_readToken h]
  cases hs : b.step mode t with
  | error error => simp only [Builder.run, hs]; rfl
  | ok b' => simp only [Builder.run, hs]; rfl

/-- At a fault reading ends. -/
theorem resume_of_fault {c : Char} {cs : List Char} {stop : Stop}
    (h : readToken c cs = .error stop) :
    resume whole mode b (c :: cs) = .error (.malformed (stop.position whole) stop.fault) := by
  have ht : tokens (c :: cs) = ([], some stop) := by
    rw [tokens]
    split
    · rename_i hs
      cases h.symm.trans hs
      rfl
    · rename_i hs
      cases h.symm.trans hs
  rw [resume, ht]
  rfl

/-! ### Results that go together -/

/-- Two results of reading that go together: the nodes of the second are those of the first
changed by `f`, and both fail together, though not always for the same reason. -/
def Mirrors (f : List Node → List Node) : (x y : Except ParseError (List Node)) → Prop
  | .ok nodes, y => y = .ok (f nodes)
  | .error _, y => ∃ error, y = .error error

theorem Mirrors.trans {f g : List Node → List Node} {x y z : Except ParseError (List Node)}
    (h : Mirrors f x y) (h' : Mirrors g y z) : Mirrors (fun nodes => g (f nodes)) x z := by
  cases x with
  | error error =>
    obtain ⟨error', rfl⟩ := h
    exact h'
  | ok nodes =>
    obtain rfl : y = .ok (f nodes) := h
    exact h'

/-! ### Text -/

theorem readToken_text {c : Char} (h : isText c = true) (cs : List Char) :
    readToken c cs = .ok (.text (c :: cs.takeWhile isText), cs.dropWhile isText) := by
  rw [isText, Bool.and_eq_true, bne_iff_ne, bne_iff_ne] at h
  rw [readToken, if_neg h.1, if_neg h.2]

private theorem resume_text_cons {c : Char} (h : isText c = true) (cs : List Char) :
    resume whole mode b (c :: cs) = resume whole mode (b.addText [c]) cs := by
  rw [resume_of_readToken (readToken_text h cs)]
  cases cs with
  | nil => rfl
  | cons d ds =>
    by_cases hd : isText d = true
    · rw [resume_of_readToken (readToken_text hd ds), List.takeWhile_cons_of_pos hd,
        List.dropWhile_cons_of_pos hd]
      simp [Builder.step, Except.bind]
    · rw [List.takeWhile_cons_of_neg hd, List.dropWhile_cons_of_neg hd]
      rfl

/-- Characters of text are collected. -/
theorem resume_text {cs : List Char} (h : ∀ c ∈ cs, isText c = true) (rest : List Char) :
    resume whole mode b (cs ++ rest) = resume whole mode (b.addText cs) rest := by
  induction cs generalizing b with
  | nil => rfl
  | cons c cs ih =>
    obtain ⟨hc, hcs⟩ := List.forall_mem_cons.mp h
    rw [List.cons_append, resume_text_cons hc, ih hcs, Builder.addText_addText]
    rfl

/-- A reference runs to its semicolon. -/
theorem readReference_eq {body : List Char} (h : ∀ c ∈ body, isTextReference c = true)
    (rest : List Char) : readReference (body ++ ';' :: rest) = .ok (.reference body, rest) := by
  have htake : (body ++ ';' :: rest).takeWhile isTextReference = body := by
    rw [List.takeWhile_append_of_pos h]
    exact List.append_nil body
  have hdrop : (body ++ ';' :: rest).dropWhile isTextReference = ';' :: rest :=
    List.dropWhile_append_of_pos h
  rw [readReference, splitReference?, hdrop, htake]
  rfl

/-- A reference to an ampersand in text is collected as that. -/
theorem resume_ampersand (rest : List Char) :
    resume whole mode b ('&' :: 'a' :: 'm' :: 'p' :: ';' :: rest) =
      resume whole mode (b.addText ['&']) rest := by
  have h : readToken '&' ('a' :: 'm' :: 'p' :: ';' :: rest) =
      .ok (.reference ['a', 'm', 'p'], rest) := rfl
  rw [resume_of_readToken h]
  rfl

/-- Words with an ampersand that begins no reference cannot be read. -/
theorem exists_resume_eq_error {cs rest : List Char} (h : ∀ c ∈ cs, isText c = true)
    (hr : splitReference? isTextReference rest = none) :
    ∃ error, resume whole mode b (cs ++ '&' :: rest) = .error error := by
  have hf : readToken '&' rest =
      .error ⟨.unclosedReference, rest.dropWhile isTextReference⟩ := by
    show readReference rest = _
    rw [readReference, hr]
  exact ⟨_, (resume_text h _).trans (resume_of_fault hf)⟩

/-! ### Comments -/

/-- What stands before the first occurrence of a mark does not hold it. -/
theorem not_infix_of_breakOn? {mark cs content rest : List Char} (hm : mark ≠ [])
    (h : breakOn? mark cs = some (content, rest)) : ¬ mark <:+: content := by
  induction cs generalizing content with
  | nil =>
    obtain ⟨r, -, he⟩ := Option.map_eq_some_iff.mp h
    cases he
    exact fun hi => hm (List.infix_nil.mp hi)
  | cons c cs ih =>
    rw [breakOn?] at h
    split at h
    · cases h
      exact fun hi => hm (List.infix_nil.mp hi)
    · rename_i hnone
      obtain ⟨⟨before, r⟩, hb, he⟩ := Option.map_eq_some_iff.mp h
      cases he
      intro hi
      rcases List.infix_cons_iff.mp hi with ⟨ds, hd⟩ | hi
      · rw [eq_of_breakOn?_eq_some hb, List.append_assoc, ← List.cons_append, ← hd,
          List.append_assoc] at hnone
        cases hnone.symm.trans (dropPrefix?_eq_some_iff.mpr rfl)
      · exact ih hb hi

theorem not_infix_of_not_mem {mark content : List Char} {c : Char} (hm : c ∈ mark)
    (h : c ∉ content) : ¬ mark <:+: content := fun hi => h (hi.subset hm)

/-- A mark that ends in its only bracket is found behind a text that does not hold it. -/
theorem breakOn?_of_not_infix {mark content : List Char} (hs : '>' ∉ mark)
    (hc : ¬ (mark ++ ['>']) <:+: content) (rest : List Char) :
    breakOn? (mark ++ ['>']) (content ++ (mark ++ '>' :: rest)) = some (content, rest) := by
  have hmark : dropPrefix? (mark ++ ['>']) (mark ++ '>' :: rest) = some rest :=
    dropPrefix?_eq_some_iff.mpr (by simp)
  induction content with
  | nil =>
    rw [List.nil_append]
    cases hd : mark ++ '>' :: rest with
    | nil => simp at hd
    | cons d ds => rw [breakOn?, ← hd, hmark]
  | cons c content ih =>
    have hnone : dropPrefix? (mark ++ ['>']) (c :: (content ++ (mark ++ '>' :: rest))) =
        none := by
      refine Option.eq_none_iff_forall_ne_some.mpr fun r hr => ?_
      have he := dropPrefix?_eq_some_iff.mp hr
      rw [← List.cons_append] at he
      rcases List.append_eq_append_iff.mp he with ⟨ds, hd, hm⟩ | ⟨ds, hd, -⟩
      · -- The bracket of the mark would stand in front of the one that stands behind the text.
        rcases List.eq_nil_or_concat ds with rfl | ⟨init, d, rfl⟩
        · have he : mark ++ ['>'] = c :: content := hd.trans (List.append_nil _)
          exact hc (he ▸ List.infix_refl _)
        · have hp : init.concat d <+: mark := by
            refine List.prefix_of_prefix_length_le ⟨r, hm.symm⟩ (List.prefix_append mark _) ?_
            have hl := congrArg List.length hd
            simp only [List.length_append, List.length_cons, List.length_nil] at hl
            omega
          rw [List.concat_eq_append, ← List.append_assoc] at hd
          cases (List.append_inj' hd rfl).2
          exact hs (hp.subset (by simp))
      · exact hc (List.IsPrefix.isInfix ⟨ds, hd.symm⟩)
    rw [List.cons_append, breakOn?, hnone]
    simp only [ih fun hi => hc (List.infix_cons hi), Option.map_some]

/-- A comment ends at the first closing mark. -/
theorem resume_comment {content : List Char} (h : ¬ ['-', '-', '>'] <:+: content)
    (rest : List Char) :
    resume whole mode b ('<' :: '!' :: '-' :: '-' :: (content ++ '-' :: '-' :: '>' :: rest)) =
      resume whole mode (b.push (.comment (String.ofList content))) rest := by
  have hr : readToken '<' ('!' :: '-' :: '-' :: (content ++ '-' :: '-' :: '>' :: rest)) =
      .ok (.comment content, rest) := by
    have hb : breakOn? ['-', '-', '>'] (content ++ '-' :: '-' :: '>' :: rest) =
        some (content, rest) := breakOn?_of_not_infix (by decide : '>' ∉ ['-', '-']) h rest
    show readUntil .comment .comment ['-', '-', '>'] (content ++ '-' :: '-' :: '>' :: rest) = _
    rw [readUntil, hb]
  rw [resume_of_readToken hr]
  rfl

end MarkupTemplate.Markup
