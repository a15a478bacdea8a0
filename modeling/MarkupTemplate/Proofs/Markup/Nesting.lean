import MarkupTemplate.Proofs.Markup.Enclosing
import MarkupTemplate.Proofs.Markup.Linear

/-!
# Nested tags

A stream of tokens is nested if every start tag has its end tag with the same local name, and
what stands between them is nested. The strict mode accepts nested streams and no others. A stream
that is not nested has a first offence: an end tag with nothing open or with another element open
innermost, or the end of the stream with an element open. The error names this offence.

All that the mode needs to know of what it has read are the names of the open elements. They are
followed by a function of their own (`MarkupTemplate.Markup.track`), which agrees with the builder
on the one hand and with the two inductive definitions on the other.

## Main definitions

* `MarkupTemplate.Markup.Nested` — streams in which the tags are properly nested.
* `MarkupTemplate.Markup.Leaves` — streams that leave elements open.
* `MarkupTemplate.Markup.Offence` — the first offence of a stream, with its error.
* `MarkupTemplate.Markup.track` — the names of the open elements along a stream.

## Main results

* `MarkupTemplate.Markup.track_eq_ok_iff`, `MarkupTemplate.Markup.verdict_eq_error_iff`
* `MarkupTemplate.Markup.Builder.map_openNames_run` — a builder knows the open elements.
* `MarkupTemplate.Markup.parse_strict_nesting` — what the strict mode accepts, and what it yields.
-/

namespace MarkupTemplate.Markup

open Dom Text

/-! ### Nested streams -/

/-- Whether a token opens an element that another token closes, or closes one. -/
def Token.isOpenOrClose : Token → Bool
  | startTag .. => true
  | endTag _ => true
  | _ => false

/-- The tags of the stream are properly nested by their local names. -/
inductive Nested : List Token → Prop
  | nil : Nested []
  | other {t : Token} {ts : List Token} (ht : t.isOpenOrClose = false) (hts : Nested ts) :
      Nested (t :: ts)
  | element {name endName : List Char} {attrs : List (List Char × List Char)}
      {inner after : List Token} (hname : localName name = localName endName)
      (hinner : Nested inner) (hafter : Nested after) :
      Nested (.startTag name attrs :: (inner ++ .endTag endName :: after))

/-- The stream leaves elements with these local names open, the innermost first, and is nested
apart from their start tags. -/
inductive Leaves : List String → List Token → Prop
  | nested {ts : List Token} (h : Nested ts) : Leaves [] ts
  | startTag {names : List String} {before inner : List Token} {name : List Char}
      {attrs : List (List Char × List Char)} (hbefore : Leaves names before)
      (hinner : Nested inner) :
      Leaves (localName name :: names) (before ++ .startTag name attrs :: inner)

/-- The first offence of a stream against nesting, with the error that names it. -/
inductive Offence : List Token → ParseError → Prop
  | unexpectedEndTag {before after : List Token} {name : List Char} (h : Leaves [] before) :
      Offence (before ++ .endTag name :: after)
        (.unexpectedEndTag (String.ofList (afterLast ':' name)))
  | mismatchedEndTag {before after : List Token} {innermost : String} {names : List String}
      {name : List Char} (h : Leaves (innermost :: names) before)
      (hname : innermost ≠ localName name) :
      Offence (before ++ .endTag name :: after) (.mismatchedEndTag innermost (localName name))
  | unclosedTag {ts : List Token} {innermost : String} {names : List String}
      (h : Leaves (innermost :: names) ts) : Offence ts (.unclosedTag innermost)

theorem Nested.append {ts us : List Token} (h : Nested ts) (hus : Nested us) :
    Nested (ts ++ us) := by
  induction h with
  | nil => exact hus
  | other ht _ ih => exact .other ht ih
  | element hname hinner _ _ ih =>
    rw [List.cons_append, List.append_assoc]
    exact .element hname hinner ih

theorem Leaves.append {names : List String} {ts us : List Token} (h : Leaves names ts)
    (hus : Nested us) : Leaves names (ts ++ us) := by
  cases h with
  | nested h => exact .nested (h.append hus)
  | startTag hbefore hinner =>
    rw [List.append_assoc]
    exact .startTag hbefore (hinner.append hus)

/-- The innermost open element is closed by an end tag with its name. -/
theorem Leaves.endTag {innermost : String} {names : List String} {ts : List Token}
    (h : Leaves (innermost :: names) ts) {name : List Char} (hname : innermost = localName name) :
    Leaves names (ts ++ [.endTag name]) := by
  cases h with
  | startTag hbefore hinner =>
    rw [List.append_assoc]
    exact hbefore.append (.element hname hinner .nil)

/-! ### The names of the open elements -/

/-- The names of the open elements after a token, the innermost first. -/
def Token.track (names : List String) : Token → Except ParseError (List String)
  | .startTag name _ => .ok (localName name :: names)
  | .endTag name =>
    match names with
    | [] => .error (.unexpectedEndTag (String.ofList (afterLast ':' name)))
    | innermost :: names =>
      if innermost = localName name then .ok names
      else .error (.mismatchedEndTag innermost (localName name))
  | _ => .ok names

/-- The names of the open elements after a stream. -/
def track (names : List String) : List Token → Except ParseError (List String)
  | [] => .ok names
  | t :: ts => (t.track names).bind fun names => track names ts

/-- At the end nothing may be open. -/
def verdict (ts : List Token) : Except ParseError Unit :=
  (track [] ts).bind fun names =>
    match names with
    | [] => .ok ()
    | innermost :: _ => .error (.unclosedTag innermost)

theorem track_append (names : List String) (ts us : List Token) :
    track names (ts ++ us) = (track names ts).bind fun names => track names us := by
  induction ts generalizing names with
  | nil => rfl
  | cons t ts ih =>
    rw [List.cons_append, track, track]
    cases t.track names with
    | error error => rfl
    | ok names => exact ih names

theorem Token.track_of_other {t : Token} (h : t.isOpenOrClose = false) (names : List String) :
    t.track names = .ok names := by
  cases t with
  | startTag | endTag => cases h
  | emptyTag | text | reference | cdata | comment | doctype | instruction | declaration => rfl

theorem Nested.track_eq {ts : List Token} (h : Nested ts) (names : List String) :
    track names ts = .ok names := by
  induction h generalizing names with
  | nil => rfl
  | other ht _ ih =>
    rw [track, Token.track_of_other ht]
    exact ih names
  | @element name endName attrs inner after hname _ _ ihinner ihafter =>
    -- At its end tag the element is the innermost again, whatever was open around it.
    have hend : (Token.endTag endName).track (localName name :: names) = .ok names :=
      if_pos hname
    show track (localName name :: names) (inner ++ .endTag endName :: after) = _
    rw [track_append, ihinner]
    show track (localName name :: names) (.endTag endName :: after) = _
    rw [track, hend]
    exact ihafter names

theorem Leaves.track_eq {names : List String} {ts : List Token} (h : Leaves names ts) :
    track [] ts = .ok names := by
  induction h with
  | nested h => exact h.track_eq []
  | startTag _ hinner ih =>
    rw [track_append, ih]
    exact hinner.track_eq _

/-- A token that can be tracked leaves open what the names say. -/
theorem Leaves.step {names names' : List String} {ts : List Token} {t : Token}
    (h : Leaves names ts) (ht : t.track names = .ok names') : Leaves names' (ts ++ [t]) := by
  cases t with
  | startTag name attrs =>
    cases ht
    exact .startTag h .nil
  | endTag name =>
    rw [Token.track.eq_def] at ht
    dsimp only at ht
    split at ht
    · cases ht
    · split at ht
      · rename_i hname
        cases ht
        exact h.endTag hname
      · cases ht
  | emptyTag | text | reference | cdata | comment | doctype | instruction | declaration =>
    cases ht
    exact h.append (.other rfl .nil)

theorem Leaves.run {names names' : List String} {ts us : List Token} (h : Leaves names ts)
    (hus : track names us = .ok names') : Leaves names' (ts ++ us) := by
  -- What has been read grows as what is to come shrinks.
  induction us generalizing names ts with
  | nil =>
    cases hus
    rwa [List.append_nil]
  | cons u us ih =>
    obtain ⟨between, hu, hus⟩ := Except.bind_eq_ok_iff.mp hus
    rw [List.append_cons]
    exact ih (h.step hu) hus

theorem track_eq_ok_iff {names : List String} {ts : List Token} :
    track [] ts = .ok names ↔ Leaves names ts :=
  ⟨fun h => (Leaves.nested .nil).run h, Leaves.track_eq⟩

theorem nested_iff_leaves {ts : List Token} : Nested ts ↔ Leaves [] ts :=
  ⟨.nested, fun h => by cases h; assumption⟩

/-- Tracking fails at one token. -/
theorem exists_of_track_eq_error {names : List String} {ts : List Token} {error : ParseError}
    (h : track names ts = .error error) :
    ∃ before t after names', ts = before ++ t :: after ∧ track names before = .ok names' ∧
      t.track names' = .error error := by
  induction ts generalizing names with
  | nil => cases h
  | cons t ts ih =>
    rw [track] at h
    cases ht : t.track names with
    | error error' =>
      rw [ht] at h
      cases h
      exact ⟨[], t, ts, names, rfl, rfl, ht⟩
    | ok between =>
      rw [ht] at h
      obtain ⟨before, u, after, names', rfl, hbefore, hu⟩ := ih h
      refine ⟨t :: before, u, after, names', rfl, ?_, hu⟩
      rw [track, ht]
      exact hbefore

theorem verdict_eq_ok_iff {ts : List Token} : verdict ts = .ok () ↔ Nested ts := by
  rw [nested_iff_leaves, ← track_eq_ok_iff, verdict]
  cases track [] ts with
  | error error => exact iff_of_false nofun nofun
  | ok names =>
    cases names with
    | nil => exact iff_of_true rfl rfl
    | cons innermost names => exact iff_of_false nofun nofun

theorem Offence.of_track {before after : List Token} {t : Token} {names : List String}
    {error : ParseError} (h : Leaves names before) (ht : t.track names = .error error) :
    Offence (before ++ t :: after) error := by
  cases t with
  | endTag name =>
    rw [Token.track.eq_def] at ht
    dsimp only at ht
    split at ht
    · cases ht
      exact .unexpectedEndTag h
    · split at ht
      · cases ht
      · rename_i hname
        cases ht
        exact .mismatchedEndTag h hname
  | startTag | emptyTag | text | reference | cdata | comment | doctype | instruction
    | declaration => cases ht

theorem verdict_eq_error_iff {ts : List Token} {error : ParseError} :
    verdict ts = .error error ↔ Offence ts error := by
  constructor
  · intro h
    rw [verdict] at h
    cases ht : track [] ts with
    | error error' =>
      rw [ht] at h
      cases h
      obtain ⟨before, t, after, names, rfl, hbefore, ht⟩ := exists_of_track_eq_error ht
      exact .of_track (track_eq_ok_iff.mp hbefore) ht
    | ok names =>
      rw [ht] at h
      cases names with
      | nil => cases h
      | cons innermost names =>
        cases h
        exact .unclosedTag (track_eq_ok_iff.mp ht)
  · intro h
    cases h with
    | unexpectedEndTag h =>
      rw [verdict, track_append, h.track_eq]
      rfl
    | @mismatchedEndTag before after innermost names name h hname =>
      have hend : (Token.endTag name).track (innermost :: names) =
          .error (.mismatchedEndTag innermost (localName name)) := if_neg hname
      rw [verdict, track_append, h.track_eq]
      show (track (innermost :: names) (.endTag name :: after)).bind _ = _
      rw [track, hend]
      rfl
    | unclosedTag h =>
      rw [verdict, h.track_eq]
      rfl

/-! ### Builders -/

namespace Builder

variable {b b' : Builder}

theorem map_openNames_close (b : Builder) (name : String) :
    (b.close name).map openNames =
      match b.openNames with
      | [] => .error (.unexpectedEndTag name)
      | innermost :: names =>
        if innermost = name then .ok names else .error (.mismatchedEndTag innermost name) := by
  rw [close, ← b.openNames_flush, openNames.eq_def b.flush]
  cases b.flush.opened with
  | nil => rfl
  | cons e es =>
    simp only [List.map_cons]
    split
    · exact congrArg Except.ok (openNames_add _ _)
    · rfl

/-- As many end tags may come as elements are open, so that the number refuses none that closes
an element. -/
theorem Balanced.map_openNames_step (hb : b.Balanced) (t : Token) :
    (b.step .strict t).map openNames = t.track b.openNames := by
  cases t with
  | startTag name attrs => exact congrArg Except.ok (openNames_openElement _ _ _)
  | endTag name =>
    have hb : b.allowance = b.openNames.length := hb
    rw [Builder.step, endTag, Token.track.eq_def]
    cases ho : b.openNames with
    | nil =>
      rw [ho] at hb
      rw [hb]
      rfl
    | cons innermost names =>
      rw [ho] at hb
      rw [hb]
      refine (map_openNames_close _ _).trans ?_
      rw [show openNames { b with allowance := names.length } = innermost :: names from ho]
  | text | reference | cdata | declaration => rfl
  | emptyTag | comment | doctype | instruction => exact congrArg Except.ok (b.openNames_push _)

theorem Balanced.map_openNames_run (hb : b.Balanced) (ts : List Token) :
    (b.run .strict ts).map openNames = track b.openNames ts := by
  induction ts generalizing b with
  | nil => rfl
  | cons t ts ih =>
    rw [run, track, ← hb.map_openNames_step]
    cases hs : b.step .strict t with
    | error error => rfl
    | ok c => exact ih (hb.step hs)

theorem map_finish (b : Builder) :
    b.finish.map (fun _ => ()) =
      match b.openNames with
      | [] => .ok ()
      | innermost :: _ => .error (.unclosedTag innermost) := by
  rw [finish, ← b.openNames_flush, openNames.eq_def b.flush]
  cases b.flush.opened with
  | nil => rfl
  | cons e es => rfl

end Builder

/-- Building a forest fails as the tags of the stream say. -/
theorem map_build (ts : List Token) : (build .strict ts).map (fun _ => ()) = verdict ts := by
  have hempty : Builder.empty.Balanced := rfl
  have hrun := hempty.map_openNames_run ts
  rw [build, verdict, ← show _ = track [] ts from hrun]
  cases Builder.empty.run .strict ts with
  | error error => rfl
  | ok b => exact b.map_finish

/-- A text without faults is accepted by the strict mode exactly if its tags are properly nested.
The forest is written as the tokens of the text, with each run of text in one token, and a text
that is not accepted has the error of its first offence. -/
theorem parse_strict_nesting {markup : String} {ts : List Token}
    (h : tokens (dropByteOrderMark markup.toList) = (ts, none)) :
    ((∃ nodes, parse .strict markup = .ok nodes) ↔ Nested ts) ∧
      (∀ nodes, parse .strict markup = .ok nodes →
        Node.linearAll nodes = (merged ts).map Token.plain) ∧
      ∀ error, parse .strict markup = .error error ↔ Offence ts error := by
  rw [parse_eq_build h, ← verdict_eq_ok_iff, ← map_build]
  simp only [← verdict_eq_error_iff, ← map_build]
  refine ⟨?_, fun nodes => linearAll_build, ?_⟩
  · rw [Except.map_eq_ok_iff]
    exact ⟨fun ⟨nodes, h⟩ => ⟨nodes, h, rfl⟩, fun ⟨nodes, h, _⟩ => ⟨nodes, h⟩⟩
  · intro error
    cases build .strict ts with
    | error error' => simp only [Except.map, Except.error.injEq]
    | ok nodes => exact iff_of_false nofun nofun

private def drawing : String := "<svg:g id='a'>1 &lt;<![CDATA[ 2]]><br/></g>"

private def drawingTokens : List Token :=
  [.startTag "svg:g".toList [("id".toList, "a".toList)], .text "1 ".toList,
    .reference "lt".toList, .cdata " 2".toList, .emptyTag "br".toList [], .endTag ['g']]

theorem parse_strict_nesting_drawing :
    tokens (dropByteOrderMark drawing.toList) = (drawingTokens, none) ∧ Nested drawingTokens ∧
      ∃ nodes, parse .strict drawing = .ok nodes ∧
        Node.linearAll nodes =
          [.startTag ['g'] [("id".toList, "a".toList)], .text "1 < 2".toList,
            .startTag "br".toList [], .endTag "br".toList, .endTag ['g']] := by
  have h : tokens (dropByteOrderMark drawing.toList) = (drawingTokens, none) := by decide +kernel
  have hp : parse .strict drawing =
      .ok [.element "g" [("id", "a")] [.text "1 < 2", .element "br" [] []]] := by decide +kernel
  obtain ⟨haccepted, hlinear, -⟩ := parse_strict_nesting h
  exact ⟨h, haccepted.mp ⟨_, hp⟩, _, hp, (hlinear _ hp).trans (by decide)⟩

/-- The way of writing forests gives the tokens of a text back, if the text is read as a forest. -/
def Restores (linear : List Node → List Token) (markup : String) : Prop :=
  ∀ ts nodes, tokens (dropByteOrderMark markup.toList) = (ts, none) →
    parse .strict markup = .ok nodes → linear nodes = merged ts

/-- Of two texts that are read as one forest but differ in their tokens, no way of writing forests
gives both back. -/
theorem not_exists_restores {markup markup' : String} (ts ts' : List Token) (nodes : List Node)
    (ht : tokens (dropByteOrderMark markup.toList) = (ts, none))
    (ht' : tokens (dropByteOrderMark markup'.toList) = (ts', none))
    (hp : parse .strict markup = .ok nodes) (hp' : parse .strict markup' = .ok nodes)
    (hne : merged ts ≠ merged ts') :
    ¬ ∃ linear, Restores linear markup ∧ Restores linear markup' := by
  rintro ⟨linear, h, h'⟩
  exact hne ((h ts nodes ht hp).symm.trans (h' ts' nodes ht' hp'))

/-- The tokens themselves cannot be had back from the forest, however it is written. The part of a
tag name before its first colon, the blanks around a doctype and those around the data of an
instruction are lost, each of them on its own. -/
theorem not_exists_linear :
    (¬ ∃ linear, ∀ markup, Restores linear markup) ∧
      (¬ ∃ linear, Restores linear "<a:b/>" ∧ Restores linear "<b/>") ∧
      (¬ ∃ linear, Restores linear "<!DOCTYPE html >" ∧ Restores linear "<!DOCTYPE html>") ∧
      ¬ ∃ linear, Restores linear "<?a  b ?>" ∧ Restores linear "<?a b?>" := by
  have hprefix : ¬ ∃ linear, Restores linear "<a:b/>" ∧ Restores linear "<b/>" :=
    not_exists_restores [.emptyTag "a:b".toList []] [.emptyTag ['b'] []] [.element "b" [] []]
      (by decide +kernel) (by decide +kernel) (by decide +kernel) (by decide +kernel) (by decide)
  have hdoctype :
      ¬ ∃ linear, Restores linear "<!DOCTYPE html >" ∧ Restores linear "<!DOCTYPE html>" :=
    not_exists_restores [.doctype "html ".toList] [.doctype "html".toList] [.doctype "html"]
      (by decide +kernel) (by decide +kernel) (by decide +kernel) (by decide +kernel) (by decide)
  have hinstruction : ¬ ∃ linear, Restores linear "<?a  b ?>" ∧ Restores linear "<?a b?>" :=
    not_exists_restores [.instruction "a  b ".toList] [.instruction "a b".toList]
      [.instruction "a" "b"] (by decide +kernel) (by decide +kernel) (by decide +kernel)
      (by decide +kernel) (by decide)
  exact ⟨fun ⟨linear, h⟩ => hprefix ⟨linear, h _, h _⟩, hprefix, hdoctype, hinstruction⟩

end MarkupTemplate.Markup
