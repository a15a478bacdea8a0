import MarkupTemplate.Proofs.Markup.Locality
import MarkupTemplate.Proofs.Markup.Tags

/-!
# Markup in a container

Markup may be read between the tags of a container. If no tag of the markup has the name of the
container, none opens or closes it. Then the container does not show: the markup is accepted
inside exactly if it is accepted alone, and the container has the nodes that the markup has alone.

What is not finished at the end of the markup takes in the end tag of the container. It ends there
at the latest, as the last character of that tag is its only closing bracket, and the container
stays open.

## Main definitions

* `MarkupTemplate.Markup.Builder.nest` — a builder with an open container around all that it holds.
* `MarkupTemplate.Markup.Builder.Apart` — a builder in which the container is not mistaken.

## Main results

* `MarkupTemplate.Markup.Builder.step_nest`, `MarkupTemplate.Markup.Builder.exists_step_nest`
* `MarkupTemplate.Markup.resume_nest` — reading goes on inside a container as it does alone.
-/

namespace MarkupTemplate.Markup

open Dom Text

/-- A token with no tag of the container. -/
def Token.Spares (tag : String) (t : Token) : Prop :=
  ∀ name ∈ t.tagName?, localName name ≠ tag

namespace Builder

variable (tag : String)

/-- The builder inside an open container, which holds the nodes outside all other elements. -/
def nest (b : Builder) : Builder :=
  ⟨[], b.opened ++ [⟨tag, [], b.roots⟩], b.pending, b.allowance + 1⟩

/-- The names of the open elements, the innermost first. -/
def openNames (b : Builder) : List String := b.opened.map OpenElement.name

/-- As many end tags may still come as elements are open. -/
def Balanced (b : Builder) : Prop := b.allowance = b.openNames.length

/-- A builder of strict reading whose open elements have other names than the container. As many
end tags may still come as elements are open. -/
structure Apart (b : Builder) : Prop where
  balanced : b.allowance = b.openNames.length
  not_mem : tag ∉ b.openNames

variable {tag} (b : Builder)

/-! ### Steps inside the container -/

theorem nest_add (n : Node) : (b.add n).nest tag = (b.nest tag).add n := by
  obtain ⟨roots, opened, pending, allowance⟩ := b
  cases opened <;> rfl

theorem nest_flush : b.flush.nest tag = (b.nest tag).flush := by
  have ht : (b.nest tag).text = b.text := rfl
  rw [flush, flush, ht]
  split
  · rfl
  · rw [← nest_add]
    rfl

theorem nest_push (n : Node) : (b.push n).nest tag = (b.nest tag).push n := by
  rw [push, push, nest_add, nest_flush]

theorem nest_openElement (name : String) (attrs : KeyedList String String) :
    (b.openElement name attrs).nest tag = (b.nest tag).openElement name attrs := by
  rw [openElement, openElement, ← nest_flush]
  rfl

@[simp] theorem openNames_add (n : Node) : (b.add n).openNames = b.openNames := by
  obtain ⟨roots, opened, pending, allowance⟩ := b
  cases opened <;> rfl

@[simp] theorem openNames_flush : b.flush.openNames = b.openNames := by
  rw [flush]
  split
  · rfl
  · exact b.openNames_add _

@[simp] theorem openNames_push (n : Node) : (b.push n).openNames = b.openNames := by
  rw [push, openNames_add, openNames_flush]

@[simp] theorem openNames_openElement (name : String) (attrs : KeyedList String String) :
    (b.openElement name attrs).openNames = name :: b.openNames :=
  congrArg (name :: ·) b.openNames_flush

@[simp] theorem allowance_openElement (name : String) (attrs : KeyedList String String) :
    (b.openElement name attrs).allowance = b.allowance := b.allowance_flush

variable {b} {b' : Builder}

theorem openNames_close {name : String} (h : b.close name = .ok b') :
    b.openNames = name :: b'.openNames ∧ b'.allowance = b.allowance := by
  rw [close] at h
  split at h
  · cases h
  · rename_i e es ho
    split at h
    · rename_i hname
      cases h
      rw [openNames_add, allowance_add, ← b.openNames_flush, ← b.allowance_flush, openNames, ho,
        List.map_cons, hname]
      exact ⟨rfl, rfl⟩
    · cases h

theorem opened_flush_nest (tag : String) (b : Builder) :
    (b.nest tag).flush.opened = b.flush.opened ++ [⟨tag, [], b.flush.roots⟩] := by
  rw [← nest_flush]
  rfl

/-- An end tag that closes an element alone closes it inside the container. -/
theorem close_nest {name : String} (h : b.close name = .ok b') :
    (b.nest tag).close name = .ok (b'.nest tag) := by
  rw [close] at h ⊢
  split at h
  · cases h
  · rename_i e es ho
    split at h
    · rename_i hname
      cases h
      have hopened := opened_flush_nest tag b
      rw [ho, List.cons_append] at hopened
      simp only [hopened, if_pos hname]
      rw [← nest_flush]
      exact congrArg Except.ok (nest_add { b.flush with opened := es } e.node).symm
    · cases h

/-- Closing fails unless the innermost open element has the name. -/
theorem exists_close_eq_error_iff {name : String} :
    (∃ error, b.close name = .error error) ↔ ∀ e ∈ b.flush.opened.head?, e.name ≠ name := by
  rw [close]
  cases b.flush.opened with
  | nil => simp
  | cons e es => by_cases hname : e.name = name <;> simp [hname]

/-- One that closes nothing alone does not close the container, if that has another name. -/
theorem exists_close_nest {name : String} (h : ∃ error, b.close name = .error error)
    (hname : name ≠ tag) : ∃ error, (b.nest tag).close name = .error error := by
  rw [exists_close_eq_error_iff] at h ⊢
  rw [opened_flush_nest]
  cases ho : b.flush.opened with
  | nil =>
    intro e he
    cases he
    exact hname.symm
  | cons e es =>
    rw [ho] at h
    exact h

/-- What a token does alone it does inside the container. -/
theorem step_nest {t : Token} (h : b.step .strict t = .ok b') :
    (b.nest tag).step .strict t = .ok (b'.nest tag) := by
  cases t with
  | startTag name attrs =>
    cases h
    exact congrArg Except.ok
      (nest_openElement { b with allowance := b.allowance + 1 } _ _).symm
  | endTag name =>
    rw [step, endTag] at h ⊢
    split at h
    · cases h
    · rename_i allowance ha
      have hb : (b.nest tag).allowance = allowance + 1 + 1 := by rw [nest, ha]
      rw [hb]
      exact close_nest h
  | text | reference | cdata | declaration =>
    cases h
    rfl
  | emptyTag | comment | doctype | instruction =>
    cases h
    exact congrArg Except.ok (nest_push _ _).symm

/-- A token that is out of place alone is so inside the container. -/
theorem exists_step_nest {t : Token} {error : ParseError} (hb : b.Apart tag) (ht : t.Spares tag)
    (h : b.step .strict t = .error error) :
    ∃ error', (b.nest tag).step .strict t = .error error' := by
  cases t with
  | endTag name =>
    have hname : localName name ≠ tag := ht name rfl
    rw [step, endTag] at h ⊢
    split at h
    · rename_i ha
      -- Nothing is open alone, so the name is compared with that of the container.
      have hopened : b.flush.opened = [] := List.map_eq_nil_iff.mp
        (b.openNames_flush.trans (List.length_eq_zero_iff.mp (hb.balanced.symm.trans ha)))
      rw [show (b.nest tag).allowance = 0 + 1 from congrArg (· + 1) ha]
      refine exists_close_eq_error_iff.mpr ?_
      rw [flush_withAllowance, opened_flush_nest, hopened]
      intro e he
      cases he
      exact hname.symm
    · rename_i allowance ha
      have hb : (b.nest tag).allowance = allowance + 1 + 1 := by rw [nest, ha]
      rw [hb]
      exact exists_close_nest ⟨error, h⟩ hname
  | startTag => cases h
  | emptyTag => cases h
  | text => cases h
  | reference => cases h
  | cdata => cases h
  | comment => cases h
  | doctype => cases h
  | instruction => cases h
  | declaration => cases h

/-- With strict reading, as many end tags may come as elements are open, at any point. -/
theorem Balanced.step {t : Token} (hb : b.Balanced) (h : b.step .strict t = .ok b') :
    b'.Balanced := by
  cases t with
  | startTag name attrs =>
    cases h
    rw [Balanced, openNames_openElement, allowance_openElement, List.length_cons]
    exact congrArg (· + 1) hb
  | endTag name =>
    rw [Builder.step, endTag] at h
    split at h
    · cases h
    · rename_i allowance ha
      obtain ⟨ho, hallowance⟩ := openNames_close h
      have hnames : b.openNames = localName name :: b'.openNames := ho
      rw [Balanced, ha, hnames, List.length_cons] at hb
      exact hallowance.trans (Nat.succ.inj hb)
  | text | reference | cdata | declaration =>
    cases h
    exact hb
  | emptyTag | comment | doctype | instruction =>
    cases h
    rw [Balanced, openNames_push, allowance_push]
    exact hb

theorem Apart.step {t : Token} (hb : b.Apart tag) (ht : t.Spares tag)
    (h : b.step .strict t = .ok b') : b'.Apart tag := by
  refine ⟨Balanced.step hb.balanced h, ?_⟩
  cases t with
  | startTag name attrs =>
    cases h
    have hname : localName name ≠ tag := ht name rfl
    rw [openNames_openElement]
    exact List.not_mem_cons_of_ne_of_not_mem hname.symm hb.not_mem
  | endTag name =>
    rw [Builder.step, endTag] at h
    split at h
    · cases h
    · have hnames : b.openNames = localName name :: b'.openNames := (openNames_close h).1
      exact fun hm => hb.not_mem (hnames ▸ List.mem_cons_of_mem _ hm)
  | text | reference | cdata | declaration =>
    cases h
    exact hb.not_mem
  | emptyTag | comment | doctype | instruction =>
    cases h
    rw [openNames_push]
    exact hb.not_mem

/-- The container stays open unless an end tag has its name. -/
theorem mem_openNames_step {t : Token} (hm : tag ∈ b.openNames)
    (ht : ∀ name, t = .endTag name → localName name ≠ tag) (h : b.step .strict t = .ok b') :
    tag ∈ b'.openNames := by
  cases t with
  | startTag name attrs =>
    cases h
    rw [openNames_openElement]
    exact List.mem_cons_of_mem _ hm
  | endTag name =>
    rw [Builder.step, endTag] at h
    split at h
    · cases h
    · have hm : tag ∈ localName name :: b'.openNames := (openNames_close h).1 ▸ hm
      exact (List.mem_cons.mp hm).resolve_left (ht name rfl).symm
  | text | reference | cdata | declaration =>
    cases h
    exact hm
  | emptyTag | comment | doctype | instruction =>
    cases h
    rwa [openNames_push]

theorem exists_finish_eq_error (hm : tag ∈ b.openNames) : ∃ error, b.finish = .error error := by
  rw [finish]
  split
  · rename_i ho
    rw [← b.openNames_flush, openNames, ho] at hm
    cases hm
  · exact ⟨_, rfl⟩

/-- At the end tag of the container the markup has to be finished. -/
theorem mirrors_finish {name : List Char} (hname : localName name = tag)
    (hm : tag ∉ b.openNames) :
    Mirrors (fun nodes => [.element tag [] nodes]) b.finish
      (((b.nest tag).step .strict (.endTag name)).bind finish) := by
  have hstep : (b.nest tag).step .strict (.endTag name) =
      { b.nest tag with allowance := b.allowance }.close tag := by
    rw [Builder.step, endTag, hname]
    rfl
  have hopened := opened_flush_nest tag b
  rw [hstep, finish]
  split
  · rename_i ho
    rw [ho, List.nil_append] at hopened
    have hclose : { b.nest tag with allowance := b.allowance }.close tag =
        .ok ⟨[.element tag [] b.flush.roots.reverse], [], [], b.allowance⟩ := by
      rw [close, flush_withAllowance]
      simp only [hopened, if_true]
      rw [← nest_flush]
      simp only [nest, add, OpenElement.node, pending_flush]
    rw [hclose]
    rfl
  · rename_i e es ho
    have hne : e.name ≠ tag := by
      rintro rfl
      rw [← b.openNames_flush, openNames, ho] at hm
      exact hm List.mem_cons_self
    have hclose : ∃ error, { b.nest tag with allowance := b.allowance }.close tag =
        .error error := by
      rw [exists_close_eq_error_iff, flush_withAllowance, hopened, ho]
      rintro d hd
      cases hd
      exact hne
    obtain ⟨error, he⟩ := hclose
    rw [he]
    exact ⟨error, rfl⟩

end Builder

/-! ### End tags that take in the end tag of the container -/

/-- What no mark follows stands behind the first mark. -/
theorem mem_afterFirst {c mark : Char} {ys : List Char} (h : mark ∉ c :: ys) (xs : List Char) :
    c ∈ afterFirst mark (xs ++ c :: ys) := by
  induction xs with
  | nil =>
    have hd : (c :: ys).dropWhile (· != mark) = [] :=
      List.dropWhile_eq_nil_iff.mpr fun d hd => bne_iff_ne.mpr (ne_of_mem_of_not_mem hd h)
    rw [List.nil_append, afterFirst, hd]
    exact List.mem_cons_self
  | cons x xs ih =>
    rw [afterFirst] at ih ⊢
    rw [List.cons_append, List.dropWhile_cons]
    split at ih
    · rename_i hd
      by_cases hx : (x != mark) = true
      · rw [if_pos hx, hd]
        exact List.mem_cons_of_mem x ih
      · rw [if_neg hx]
        exact ih
    · rename_i hd
      by_cases hx : (x != mark) = true
      · rw [if_pos hx, hd]
        exact ih
      · rw [if_neg hx]
        exact List.mem_append_right xs List.mem_cons_self

theorem exists_of_readMarkup_endTag {cs name rest : List Char}
    (h : readMarkup cs = .ok (.endTag name, rest)) :
    ∃ content, cs = '/' :: (content ++ '>' :: rest) ∧ name = endName content := by
  rw [readMarkup.eq_def] at h
  split at h
  · cases h
  · simp only [readBang.eq_def, readComment, readCdata, readDoctype, readUntil] at h
    repeat' split at h
    all_goals cases h
  · simp only [readInstruction] at h
    repeat' split at h
    all_goals cases h
  · rw [readEndTag] at h
    split at h
    · cases h
    · rename_i content r hs
      cases h
      exact ⟨content, congrArg ('/' :: ·) (eq_of_spanTag_eq_ok hs), rfl⟩
  · simp only [readStartTag] at h
    repeat' split at h
    all_goals cases h

/-- The name would have a bracket in it. -/
theorem localName_ne_of_readMarkup {tag : String} (hn : IsTagName tag.toList) {cs name : List Char}
    (h : readMarkup (cs ++ ('<' :: '/' :: tag.toList ++ ['>'])) = .ok (.endTag name, [])) :
    localName name ≠ tag := by
  obtain ⟨content, hcs, rfl⟩ := exists_of_readMarkup_endTag h
  rw [← List.append_assoc, ← List.cons_append] at hcs
  have hcontent := (List.append_inj' hcs rfl).1
  cases cs with
  | nil => cases hcontent
  | cons c cs =>
    obtain rfl : cs ++ '<' :: '/' :: tag.toList = content := (List.cons.inj hcontent).2
    have hlast : endName (cs ++ '<' :: '/' :: tag.toList) = cs ++ '<' :: '/' :: tag.toList := by
      have := endName_append hn (cs ++ ['<', '/'])
      rwa [List.append_assoc] at this
    have hcolon : ':' ∉ '<' :: '/' :: tag.toList := by
      simpa using hn.not_mem (by decide)
    have hm := mem_afterFirst hcolon cs
    rw [hlast]
    rintro htag
    rw [← htag, localName, String.toList_ofList] at hn
    exact hn.not_mem (by decide) hm

/-! ### Reading inside the container -/

section Container

variable {tag : String} (hn : IsTagName tag.toList) {b : Builder}
include hn

/-- Where the markup ends, the end tag closes the container if the markup is finished. -/
theorem mirrors_resume_nil (whole whole' : List Char) (hb : tag ∉ b.openNames) :
    Mirrors (fun nodes => [.element tag [] nodes]) (resume whole .strict b [])
      (resume whole' .strict (b.nest tag) ('<' :: '/' :: tag.toList ++ ['>'])) := by
  have hname : localName tag.toList = tag := by
    rw [localName_of_not_mem (hn.not_mem (by decide)), String.ofList_toList]
  rw [resume_nil, List.cons_append, List.cons_append,
    resume_of_readToken (readToken_endTag (hn.writable_nil : Writable id _ []) [])]
  simp only [resume_nil]
  exact Builder.mirrors_finish hname hb

/-- What is not finished at the end of the markup is not finished behind the end tag either, or it
takes in that tag and leaves the container open. -/
theorem exists_resume_nest_eq_error (whole : List Char) {c : Char} {cs : List Char}
    {stop : Stop} (hf : readToken c cs = .error stop) :
    ∃ error, resume whole .strict (b.nest tag)
      (c :: (cs ++ ('<' :: '/' :: tag.toList ++ ['>']))) = .error error := by
  cases hr : readToken c (cs ++ ('<' :: '/' :: tag.toList ++ ['>'])) with
  | error stop' => exact ⟨_, resume_of_fault hr⟩
  | ok p =>
    obtain ⟨t, rest⟩ := p
    obtain ⟨rfl, hm⟩ := eq_of_readToken_append (by simpa using hn.not_mem (by decide))
      (by simpa using hn.not_mem (by decide)) hf hr
    cases hr.symm.trans ((if_pos rfl).trans hm)
    rw [resume_of_readToken hr]
    have hopen : tag ∈ (b.nest tag).openNames := by simp [Builder.openNames, Builder.nest]
    cases hs : (b.nest tag).step .strict t with
    | error error => exact ⟨error, rfl⟩
    | ok b' =>
      have hspares (name : List Char) (ht : t = .endTag name) : localName name ≠ tag := by
        subst ht
        exact localName_ne_of_readMarkup hn hm
      obtain ⟨error, he⟩ :=
        Builder.exists_finish_eq_error (Builder.mem_openNames_step hopen hspares hs)
      exact ⟨error, resume_nil.trans he⟩

/-- Reading goes on inside the container as it does alone. -/
theorem resume_nest (whole whole' : List Char) {cs : List Char} (hb : b.Apart tag)
    (hcs : ∀ t ∈ (tokens cs).1, t.Spares tag) :
    Mirrors (fun nodes => [.element tag [] nodes]) (resume whole .strict b cs)
      (resume whole' .strict (b.nest tag) (cs ++ ('<' :: '/' :: tag.toList ++ ['>']))) := by
  fun_induction tokens cs generalizing b with
  | case1 => exact mirrors_resume_nil hn whole whole' hb.not_mem
  | case2 c cs stop hf =>
    rw [resume_of_fault hf]
    exact exists_resume_nest_eq_error hn whole' hf
  | case3 c cs t rest h ts stop? hts ih =>
    have hr : readToken c (cs ++ ('<' :: '/' :: tag.toList ++ ['>'])) =
        .ok (t, rest ++ ('<' :: '/' :: tag.toList ++ ['>'])) := readToken_append rfl h _
    rw [List.cons_append, resume_of_readToken h, resume_of_readToken hr]
    obtain ⟨hspares, hrest⟩ := List.forall_mem_cons.mp hcs
    rw [hts] at ih
    cases hs : b.step .strict t with
    | error error =>
      obtain ⟨error', he⟩ := Builder.exists_step_nest hb hspares hs
      rw [he]
      exact ⟨error', rfl⟩
    | ok b' =>
      rw [Builder.step_nest hs]
      exact ih (hb.step hspares hs) hrest

end Container

end MarkupTemplate.Markup
