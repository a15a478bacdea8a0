import MarkupTemplate.Proofs.Markup.Nesting

/-!
# Void tags in the lenient mode

The lenient mode reads a start tag of a void element as an empty-element tag and passes over an end
tag of one. So it builds what the strict mode builds of the stream with these tags changed, but not
always: each end tag, also one of a void element, uses up a start tag that came before it, whatever
their names are. Where none is left, an end tag is refused, which may be a later one that would
close an element.

## Main definitions

* `MarkupTemplate.Markup.selfClosing` — a stream in which no void element is opened or closed.
* `MarkupTemplate.Markup.Covered` — streams in which more start tags than end tags stand before
  each end tag.
* `MarkupTemplate.Markup.Builder.balance` — the builder with the allowance of strict reading.

## Main results

* `MarkupTemplate.Markup.Builder.step_lenient_iff`, `MarkupTemplate.Markup.Builder.run_lenient_iff`
* `MarkupTemplate.Markup.build_lenient_eq_ok_iff`, `MarkupTemplate.Markup.parse_lenient_eq_ok_iff` —
  what the lenient mode accepts.
-/

namespace MarkupTemplate.Markup

open Dom Text

/-! ### Streams -/

namespace Token

/-- Whether a token is a start tag, but no empty-element tag. -/
def isStartTag : Token → Bool
  | startTag .. => true
  | _ => false

/-- Whether a token is an end tag. -/
def isEndTag : Token → Bool
  | endTag _ => true
  | _ => false

/-- The start tag of a void element as an empty-element tag, and nothing for its end tag. -/
def selfClosing : Token → List Token
  | startTag name attrs =>
    if Dom.isVoid (localName name) then [emptyTag name attrs] else [startTag name attrs]
  | endTag name => if Dom.isVoid (localName name) then [] else [endTag name]
  | t => [t]

/-- How many more end tags than start tags may come after a token, if `allowance` may come
before. -/
def allowed (allowance : Nat) : Token → Option Nat
  | startTag .. => some (allowance + 1)
  | endTag _ =>
    match allowance with
    | 0 => none
    | allowance + 1 => some allowance
  | _ => some allowance

end Token

/-- The stream with every start tag of a void element made an empty-element tag and every end tag
of a void element removed. -/
def selfClosing (ts : List Token) : List Token := ts.flatMap Token.selfClosing

/-- Before each end tag there are fewer end tags than start tags, with `allowance` start tags more
than the stream has. -/
def Covered (allowance : Nat) (ts : List Token) : Prop :=
  ∀ before name after, ts = before ++ .endTag name :: after →
    before.countP Token.isEndTag < allowance + before.countP Token.isStartTag

theorem covered_nil (allowance : Nat) : Covered allowance [] :=
  fun before _ _ h => by cases before <;> cases h

variable {allowance : Nat} {t : Token} {ts : List Token}

/-- An end tag is the first token of a stream, or it has the first token before it. -/
private theorem covered_cons_of_count {left : Nat} (hfirst : t.isEndTag = true → 0 < allowance)
    (hcount : ∀ before : List Token,
      (t :: before).countP Token.isEndTag < allowance + (t :: before).countP Token.isStartTag ↔
        before.countP Token.isEndTag < left + before.countP Token.isStartTag) :
    Covered allowance (t :: ts) ↔ Covered left ts := by
  constructor
  · intro h before name after hts
    exact (hcount before).mp (h (t :: before) name after (congrArg (t :: ·) hts))
  · intro h before name after hts
    cases before with
    | nil =>
      cases hts
      exact hfirst rfl
    | cons u before =>
      cases hts
      exact (hcount before).mpr (h before name after rfl)

theorem covered_cons_iff :
    Covered allowance (t :: ts) ↔
      ∃ left, t.allowed allowance = some left ∧ Covered left ts := by
  cases t with
  | startTag name attrs =>
    simp only [Token.allowed, Option.some.injEq, exists_eq_left']
    refine covered_cons_of_count nofun fun before => ?_
    simp only [List.countP_cons, Token.isEndTag, Token.isStartTag, Bool.false_eq_true, if_false,
      if_true]
    omega
  | endTag name =>
    cases allowance with
    | zero => exact iff_of_false (fun h => absurd (h [] name ts rfl) (Nat.lt_irrefl 0)) nofun
    | succ allowance =>
      simp only [Token.allowed, Option.some.injEq, exists_eq_left']
      refine covered_cons_of_count (fun _ => Nat.succ_pos allowance) fun before => ?_
      simp only [List.countP_cons, Token.isEndTag, Token.isStartTag, Bool.false_eq_true, if_false,
        if_true]
      omega
  | emptyTag | text | reference | cdata | comment | doctype | instruction | declaration =>
    simp only [Token.allowed, Option.some.injEq, exists_eq_left']
    exact covered_cons_of_count nofun fun before => Iff.rfl

/-! ### Builders -/

namespace Builder

variable (b : Builder)

/-- The builder with the allowance that it has in strict reading. -/
def balance : Builder := { b with allowance := b.openNames.length }

theorem balance_push (n : Node) : (b.push n).balance = b.balance.push n := by
  rw [balance, openNames_push]
  exact (b.push_withAllowance b.openNames.length n).symm

theorem balance_openElement (name : String) (attrs : KeyedList String String) :
    (b.openElement name attrs).balance =
      { b.balance with allowance := b.balance.allowance + 1 }.openElement name attrs := by
  rw [balance, openNames_openElement, List.length_cons]
  exact (b.openElement_withAllowance (b.openNames.length + 1) name attrs).symm

theorem finish_balance : b.balance.finish = b.finish := by
  rw [finish, balance, flush_withAllowance, finish]

variable {b} {b' c : Builder}

theorem Balanced.balance_withAllowance (h : b.Balanced) (allowance : Nat) :
    { b with allowance }.balance = b := by
  have h : b.allowance = b.openNames.length := h
  show { b with allowance := b.openNames.length } = b
  rw [← h]

/-- A builder is its allowance and what it has without regard to that. -/
theorem eq_iff_balance : b = b' ↔ b.allowance = b'.allowance ∧ b.balance = b'.balance := by
  refine ⟨fun h => h ▸ ⟨rfl, rfl⟩, fun ⟨ha, hb⟩ => ?_⟩
  obtain ⟨roots, opened, pending, allowance⟩ := b
  obtain ⟨roots', opened', pending', allowance'⟩ := b'
  cases ha
  cases hb
  rfl

theorem run_append (mode : Mode) (b : Builder) (ts us : List Token) :
    b.run mode (ts ++ us) = (b.run mode ts).bind fun b => b.run mode us := by
  induction ts generalizing b with
  | nil => rfl
  | cons t ts ih =>
    rw [List.cons_append, run, run]
    cases b.step mode t with
    | error error => rfl
    | ok c => exact ih c

theorem Balanced.run (hb : b.Balanced) (h : b.run .strict ts = .ok b') : b'.Balanced := by
  induction ts generalizing b with
  | nil =>
    cases h
    exact hb
  | cons t ts ih =>
    obtain ⟨c, hc, h⟩ := Except.bind_eq_ok_iff.mp h
    exact ih (hb.step hc) h

theorem step_lenient_iff_of_ok (hstep : b.step .lenient t = .ok c)
    (hallowed : t.allowed b.allowance = some c.allowance)
    (hrun : b.balance.run .strict t.selfClosing = .ok c.balance) :
    b.step .lenient t = .ok b' ↔
      t.allowed b.allowance = some b'.allowance ∧
        b.balance.run .strict t.selfClosing = .ok b'.balance := by
  rw [hstep, hallowed, hrun, Except.ok.injEq, Option.some.injEq, Except.ok.injEq, eq_iff_balance]

/-- With the allowance of strict reading an end tag closes what it closes with any other. -/
theorem run_endTag_balance_iff {name : List Char} :
    b.balance.run .strict [.endTag name] = .ok c ↔
      ∃ d, b.close (localName name) = .ok d ∧ d.balance = c := by
  have hclose (allowance : Nat) : { b.balance with allowance }.close (localName name) =
      (b.close (localName name)).map fun d => { d with allowance } :=
    b.close_withAllowance allowance (localName name)
  have hstrict : ¬ Mode.strict.isVoid (localName name) = true := Bool.false_ne_true
  rw [run, step, endTag]
  cases hd : b.close (localName name) with
  | error error =>
    cases b.balance.allowance with
    | zero => simp [Except.bind]
    | succ allowance => simp [hstrict, hclose, hd, Except.bind, Except.map]
  | ok d =>
    have ha : b.balance.allowance = d.openNames.length + 1 :=
      congrArg List.length (openNames_close hd).1
    simp only [ha, if_neg hstrict, hclose, hd, Except.map, Except.bind, run, Except.ok.injEq,
      exists_eq_left']
    rfl

/-- The effect of an end tag that is not refused is that in strict reading. -/
theorem step_lenient_iff_of_endTag {name : List Char}
    (hname : Dom.isVoid (localName name) = false) :
    b.step .lenient (.endTag name) = .ok b' ↔
      (Token.endTag name).allowed b.allowance = some b'.allowance ∧
        b.balance.run .strict (Token.endTag name).selfClosing = .ok b'.balance := by
  have hclosed : ¬ Dom.isVoid (localName name) = true := Bool.eq_false_iff.mp hname
  have hlenient : ¬ Mode.lenient.isVoid (localName name) = true := hclosed
  rw [Token.selfClosing, if_neg hclosed, run_endTag_balance_iff, step, endTag]
  cases b.allowance with
  | zero => simp [Token.allowed]
  | succ allowance =>
    simp only [Token.allowed, if_neg hlenient, close_withAllowance, Except.map_eq_ok_iff]
    constructor
    · rintro ⟨d, hd, rfl⟩
      exact ⟨rfl, d, hd, rfl⟩
    · rintro ⟨ha, d, hd, hb⟩
      exact ⟨d, hd, eq_iff_balance.mpr ⟨Option.some.inj ha, hb⟩⟩

/-- A token that is not refused has the effect of its changed form in strict reading. -/
theorem step_lenient_iff :
    b.step .lenient t = .ok b' ↔
      t.allowed b.allowance = some b'.allowance ∧
        b.balance.run .strict t.selfClosing = .ok b'.balance := by
  cases t with
  | text | reference | cdata | declaration => exact step_lenient_iff_of_ok rfl rfl rfl
  | emptyTag | comment | doctype | instruction =>
    refine step_lenient_iff_of_ok rfl (congrArg some (b.allowance_push _).symm) ?_
    exact congrArg Except.ok (b.balance_push _).symm
  | startTag name attrs =>
    cases hname : Dom.isVoid (localName name) with
    | true =>
      refine step_lenient_iff_of_ok (if_pos hname)
        (congrArg some (allowance_push (b.grant 1) _).symm) ?_
      rw [Token.selfClosing, if_pos hname]
      exact congrArg Except.ok (balance_push (b.grant 1) _).symm
    | false =>
      have hopened : ¬ Dom.isVoid (localName name) = true := Bool.eq_false_iff.mp hname
      refine step_lenient_iff_of_ok (if_neg hopened)
        (congrArg some (allowance_openElement (b.grant 1) _ _).symm) ?_
      rw [Token.selfClosing, if_neg hopened]
      exact congrArg Except.ok (balance_openElement (b.grant 1) _ _).symm
  | endTag name =>
    cases hname : Dom.isVoid (localName name) with
    | true =>
      have hvoid : Mode.lenient.isVoid (localName name) = true := hname
      cases ha : b.allowance with
      | zero => simp [step, endTag, ha, Token.allowed]
      | succ allowance =>
        have hstep : b.step .lenient (.endTag name) = .ok { b with allowance } := by
          rw [step, endTag, ha]
          exact if_pos hvoid
        rw [← ha]
        refine step_lenient_iff_of_ok hstep (ha ▸ rfl) ?_
        rw [Token.selfClosing, if_pos hname]
        rfl
    | false => exact step_lenient_iff_of_endTag hname

/-- A stream is read leniently if its end tags are covered and its changed form is read
strictly. -/
theorem run_lenient_iff :
    (∃ b', b.run .lenient ts = .ok b' ∧ b'.balance = c) ↔
      Covered b.allowance ts ∧ b.balance.run .strict (selfClosing ts) = .ok c := by
  induction ts generalizing b with
  | nil =>
    constructor
    · rintro ⟨b', hrun, rfl⟩
      cases hrun
      exact ⟨covered_nil b.allowance, rfl⟩
    · rintro ⟨-, hrun⟩
      exact ⟨b, rfl, Except.ok.inj hrun⟩
  | cons t ts ih =>
    have hcons : (t :: ts).flatMap Token.selfClosing = t.selfClosing ++ selfClosing ts := rfl
    rw [selfClosing, hcons, run_append, covered_cons_iff]
    constructor
    · rintro ⟨b', hrun, hb'⟩
      obtain ⟨d, hd, hrun⟩ := Except.bind_eq_ok_iff.mp hrun
      obtain ⟨hallowed, hstrict⟩ := step_lenient_iff.mp hd
      obtain ⟨hcovered, hrest⟩ := ih.mp ⟨b', hrun, hb'⟩
      exact ⟨⟨_, hallowed, hcovered⟩, Except.bind_eq_ok_iff.mpr ⟨_, hstrict, hrest⟩⟩
    · rintro ⟨⟨left, hallowed, hcovered⟩, hstrict⟩
      obtain ⟨d, hd, hrest⟩ := Except.bind_eq_ok_iff.mp hstrict
      -- Strict reading keeps its own allowance, so any other may be put in the place of that.
      have hbalanced : b.balance.Balanced := rfl
      have hbalance : { d with allowance := left }.balance = d :=
        (hbalanced.run hd).balance_withAllowance left
      have hstep : b.step .lenient t = .ok { d with allowance := left } :=
        step_lenient_iff.mpr ⟨hallowed, hbalance.symm ▸ hd⟩
      obtain ⟨b', hrun, hb'⟩ := ih.mpr ⟨hcovered, hbalance.symm ▸ hrest⟩
      exact ⟨b', Except.bind_eq_ok_iff.mpr ⟨_, hstep, hrun⟩, hb'⟩

end Builder

/-! ### Texts -/

/-- The lenient mode builds what the strict mode builds of the stream with its void tags changed, if
the end tags are covered. -/
theorem build_lenient_eq_ok_iff {nodes : List Node} :
    build .lenient ts = .ok nodes ↔
      Covered 0 ts ∧ build .strict (selfClosing ts) = .ok nodes := by
  rw [build, build]
  constructor
  · intro hn
    obtain ⟨b, hrun, hfinish⟩ := Except.bind_eq_ok_iff.mp hn
    obtain ⟨hcovered, hstrict⟩ := Builder.run_lenient_iff.mp ⟨b, hrun, rfl⟩
    exact ⟨hcovered,
      Except.bind_eq_ok_iff.mpr ⟨_, hstrict, b.finish_balance.trans hfinish⟩⟩
  · rintro ⟨hcovered, hn⟩
    obtain ⟨c, hstrict, hfinish⟩ := Except.bind_eq_ok_iff.mp hn
    have hempty : Builder.empty.balance = .empty := rfl
    obtain ⟨b, hrun, rfl⟩ := Builder.run_lenient_iff.mpr ⟨hcovered, hempty ▸ hstrict⟩
    exact Except.bind_eq_ok_iff.mpr ⟨b, hrun, b.finish_balance.symm.trans hfinish⟩

/-- A text without faults is accepted by the lenient mode exactly if each of its end tags, void or
not, is preceded by more start tags than end tags and the strict mode would build a forest of its
tokens with their void tags changed, and then it has this forest. -/
theorem parse_lenient_eq_ok_iff {markup : String} {ts : List Token}
    (h : tokens (dropByteOrderMark markup.toList) = (ts, none)) (nodes : List Node) :
    parse .lenient markup = .ok nodes ↔
      Covered 0 ts ∧ build .strict (selfClosing ts) = .ok nodes := by
  rw [parse_eq_build h]
  exact build_lenient_eq_ok_iff

private def lineTokens : List Token :=
  [.startTag ['p'] [], .startTag ['b', 'r'] [], .text ['x'], .endTag ['b', 'r'], .endTag ['p']]

theorem parse_lenient_line :
    tokens (dropByteOrderMark "<p><br>x</br></p>".toList) = (lineTokens, none) ∧
      parse .lenient "<p><br>x</br></p>" =
        .ok [.element "p" [] [.element "br" [] [], .text "x"]] ∧
      Covered 0 lineTokens ∧
      build .strict (selfClosing lineTokens) =
        .ok [.element "p" [] [.element "br" [] [], .text "x"]] := by
  have h : tokens (dropByteOrderMark "<p><br>x</br></p>".toList) = (lineTokens, none) := by
    decide +kernel
  have hp : parse .lenient "<p><br>x</br></p>" =
      .ok [.element "p" [] [.element "br" [] [], .text "x"]] := by decide +kernel
  exact ⟨h, hp, (parse_lenient_eq_ok_iff h _).mp hp⟩

/-- The end tag of a void element uses up the start tag of the element around it, whose own end
tag is refused then. -/
theorem parse_lenient_stray_endTag :
    ∃ ts, tokens (dropByteOrderMark "<p></br></p>".toList) = (ts, none) ∧
      build .strict (selfClosing ts) = .ok [.element "p" [] []] ∧
      parse .lenient "<p></br></p>" = .error (.unexpectedEndTag "p") :=
  ⟨[.startTag ['p'] [], .endTag ['b', 'r'], .endTag ['p']], by decide +kernel, by decide +kernel,
    by decide +kernel⟩

end MarkupTemplate.Markup
