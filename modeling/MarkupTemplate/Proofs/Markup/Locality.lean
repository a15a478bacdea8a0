import Mathlib.Data.List.TakeWhile
import MarkupTemplate.Proofs.Markup.Reading
import MarkupTemplate.Proofs.Text.Blanks

/-!
# Tokens are read from their own text

What begins with `<` is read up to a closing bracket, and a reference up to its semicolon. What
stands behind this character has no part in the reading, so it may be replaced by any other text.
The texts that a token holds are pieces of the stretch that it was read from.

## Main definitions

* `MarkupTemplate.Markup.Closes` — reading that ends with a character and looks no further.

## Main results

* `MarkupTemplate.Markup.closes_of_readMarkup`, `MarkupTemplate.Markup.closes_of_readReference`
* `MarkupTemplate.Markup.readToken_append`, `MarkupTemplate.Markup.eq_of_readToken_append` — what
  a text put behind can change.
-/

namespace MarkupTemplate.Markup

open Text

/-- A reading of `cs` that ends with the character `mark` and leaves `rest`. It takes the same
stretch whatever follows, and `result` says what comes of it from what is left. -/
def Closes {α : Type} (mark : Char) (read result : List Char → α) (cs rest : List Char) : Prop :=
  ∃ body, cs = body ++ mark :: rest ∧ ∀ ys, read (body ++ mark :: ys) = result ys

/-- A reading that starts with the reading of a later part of the text. -/
theorem Closes.behind {α β : Type} {mark : Char} {read result : List Char → α}
    {read' result' : List Char → β} {ds rest : List Char} (h : Closes mark read result ds rest)
    (start : List Char)
    (himp : ∀ ds r, read ds = result r → read' (start ++ ds) = result' r) :
    Closes mark read' result' (start ++ ds) rest := by
  obtain ⟨body, rfl, hbody⟩ := h
  refine ⟨start ++ body, (List.append_assoc ..).symm, fun ys => ?_⟩
  rw [List.append_assoc]
  exact himp _ _ (hbody ys)

/-- Readings that agree on texts with the same first character. -/
theorem Closes.congr {α : Type} {mark : Char} {read read' result : List Char → α}
    {cs rest : List Char} (h : Closes mark read result cs rest)
    (heq : ∀ c ∈ cs.head?, ∀ ys, read' (c :: ys) = read (c :: ys)) :
    Closes mark read' result cs rest := by
  obtain ⟨body, rfl, hbody⟩ := h
  refine ⟨body, rfl, fun ys => (Eq.trans ?_ (hbody ys))⟩
  cases body with
  | nil => exact heq mark rfl ys
  | cons c body => exact heq c rfl _

/-- Reading a text with more text behind ends in it already, or else in what stands behind. -/
theorem Closes.of_append {α : Type} {mark : Char} {read result : List Char → α}
    {cs ys rest : List Char} (h : Closes mark read result (cs ++ ys) rest) :
    (∃ r, read cs = result r) ∨ ∃ zs, ys = zs ++ mark :: rest := by
  obtain ⟨body, hcs, hbody⟩ := h
  rcases List.append_eq_append_iff.mp hcs with ⟨zs, -, hys⟩ | ⟨_ | ⟨d, r⟩, rfl, hr⟩
  · exact .inr ⟨zs, hys⟩
  · exact .inr ⟨[], hr.symm⟩
  · obtain ⟨rfl, -⟩ := List.cons.inj hr
    exact .inl ⟨r, hbody r⟩

variable {cs content rest : List Char}

/-! ### Beginnings and marks -/

/-- A beginning without the closing bracket stands in front of the bracket. -/
theorem dropPrefix?_append_close {start : List Char} (hs : '>' ∉ start) (body rest : List Char) :
    dropPrefix? start (body ++ '>' :: rest) =
      (dropPrefix? start body).map fun ds => ds ++ '>' :: rest := by
  induction start generalizing body with
  | nil => rfl
  | cons s start ih =>
    obtain ⟨hne, hs⟩ := not_or.mp (mt List.mem_cons.mpr hs)
    cases body with
    | nil =>
      show (if s = '>' then _ else none) = none
      rw [if_neg (Ne.symm hne)]
    | cons c body =>
      rw [List.cons_append, dropPrefix?, dropPrefix?, ih hs]
      split <;> rfl

theorem dropPrefix?_append_self (start ds : List Char) :
    dropPrefix? start (start ++ ds) = some ds :=
  dropPrefix?_eq_some_iff.mpr rfl

/-- Where a text does not begin with `start`, its first characters decide that. -/
theorem dropPrefix?_eq_none_of_length_le {start xs ys : List Char}
    (hl : start.length ≤ xs.length) (h : dropPrefix? start (xs ++ ys) = none) (zs : List Char) :
    dropPrefix? start (xs ++ zs) = none := by
  refine Option.eq_none_iff_forall_ne_some.mpr fun r hr => ?_
  have hpre : start <+: xs ++ zs := ⟨r, (dropPrefix?_eq_some_iff.mp hr).symm⟩
  obtain ⟨ws, rfl⟩ := List.prefix_of_prefix_length_le hpre (List.prefix_append xs zs) hl
  rw [List.append_assoc, dropPrefix?_append_self] at h
  cases h

/-- The first occurrence of a mark does not depend on what follows it. -/
theorem breakOn?_append {mark : List Char} (h : breakOn? mark cs = some (content, rest))
    (ys : List Char) : breakOn? mark (content ++ (mark ++ ys)) = some (content, ys) := by
  have hstart (ds : List Char) : breakOn? mark (mark ++ ds) = some ([], ds) := by
    cases hd : mark ++ ds with
    | nil =>
      obtain ⟨rfl, rfl⟩ := List.append_eq_nil_iff.mp hd
      rfl
    | cons d ds' => rw [breakOn?, ← hd, dropPrefix?_append_self]
  induction cs generalizing content with
  | nil =>
    obtain ⟨r, -, he⟩ := Option.map_eq_some_iff.mp h
    cases he
    exact hstart ys
  | cons c cs ih =>
    rw [breakOn?] at h
    split at h
    · cases h
      exact hstart ys
    · rename_i hnone
      obtain ⟨⟨before, r⟩, hb, he⟩ := Option.map_eq_some_iff.mp h
      cases he
      have hcs := eq_of_breakOn?_eq_some hb
      have hc : dropPrefix? mark (c :: (before ++ (mark ++ ys))) = none := by
        rw [hcs, ← List.cons_append, ← List.cons_append] at hnone
        have := dropPrefix?_eq_none_of_length_le (by simp; omega) hnone ys
        rwa [List.cons_append, List.cons_append, List.append_assoc] at this
      rw [List.cons_append, breakOn?, hc, ih hb]
      rfl

theorem closes_of_breakOn? (mark : List Char)
    (h : breakOn? (mark ++ ['>']) cs = some (content, rest)) :
    Closes '>' (breakOn? (mark ++ ['>'])) (fun r => some (content, r)) cs rest := by
  refine ⟨content ++ mark, ?_, fun ys => ?_⟩
  · rw [eq_of_breakOn?_eq_some h]
    simp
  · have := breakOn?_append h ys
    rwa [List.append_assoc, List.singleton_append, ← List.append_assoc] at this

theorem closes_of_after? (mark : List Char) (h : after? (mark ++ ['>']) cs = some rest) :
    Closes '>' (after? (mark ++ ['>'])) some cs rest := by
  obtain ⟨⟨content, r⟩, hb, rfl⟩ := Option.map_eq_some_iff.mp h
  obtain ⟨body, rfl, hbody⟩ := closes_of_breakOn? mark hb
  exact ⟨body, rfl, fun ys => Option.map_eq_some_iff.mpr ⟨_, hbody ys, rfl⟩⟩

/-! ### Tags and doctypes -/

/-- What belongs to a tag does not depend on what follows it. -/
theorem spanTag_content {open? : Option Quote} (h : spanTag open? cs = .ok (content, rest))
    (ys : List Char) : spanTag open? (content ++ '>' :: ys) = .ok (content, ys) := by
  induction cs generalizing open? content with
  | nil => cases open? <;> cases h
  | cons c cs ih =>
    cases open? with
    | none =>
      rw [spanTag] at h
      split at h
      · cases h
        rfl
      · rename_i hc
        obtain ⟨⟨body, r⟩, hs, he⟩ := Except.map_eq_ok_iff.mp h
        cases he
        rw [List.cons_append, spanTag]
        simp only [if_neg hc, ih hs]
        rfl
    | some quote =>
      obtain ⟨⟨body, r⟩, hs, he⟩ := Except.map_eq_ok_iff.mp h
      cases he
      rw [List.cons_append, spanTag]
      simp only [ih hs]
      rfl

theorem closes_of_spanTag (h : spanTag none cs = .ok (content, rest)) :
    Closes '>' (spanTag none) (fun r => .ok (content, r)) cs rest :=
  ⟨content, eq_of_spanTag_eq_ok h, spanTag_content h⟩

theorem closes_of_afterTag? (h : afterTag? cs = some rest) :
    Closes '>' afterTag? some cs rest := by
  rw [afterTag?] at h
  split at h
  · rename_i content r hs
    cases h
    obtain ⟨body, rfl, hbody⟩ := closes_of_spanTag hs
    exact ⟨body, rfl, fun ys => by rw [afterTag?, hbody ys]⟩
  · cases h

/-- The keyword of a declaration stands in front of its end, so it is whole. -/
theorem closes_of_afterDeclaration? (h : afterDeclaration? cs = some rest) :
    Closes '>' afterDeclaration? some cs rest := by
  rw [afterDeclaration?] at h
  split at h
  · rename_i ds hd
    rw [dropPrefix?_eq_some_iff.mp hd]
    exact (closes_of_after? ['?'] h).behind _ fun ds r hr => hr
  rename_i hquestion
  split at h
  · rename_i ds hd
    rw [dropPrefix?_eq_some_iff.mp hd]
    exact (closes_of_after? ['-', '-'] h).behind _ fun ds r hr => hr
  rename_i hcomment
  split at h
  · rename_i ds hd
    rw [dropPrefix?_eq_some_iff.mp hd]
    exact (closes_of_afterTag? h).behind _ fun ds r hr => hr
  rename_i hentity
  split at h
  · rename_i ds hd
    rw [dropPrefix?_eq_some_iff.mp hd]
    exact (closes_of_afterTag? h).behind _ fun ds r hr => hr
  rename_i hattlist
  split at h
  · rename_i ds hd
    rw [dropPrefix?_eq_some_iff.mp hd]
    exact (closes_of_afterTag? h).behind _ fun ds r hr => hr
  rename_i hnotation
  obtain ⟨body, rfl, hbody⟩ := closes_of_after? [] h
  have hnone {start : List Char} (hs : '>' ∉ start)
      (h : ∀ ds, dropPrefix? start (body ++ '>' :: rest) = some ds → False) (ys : List Char) :
      dropPrefix? start (body ++ '>' :: ys) = none := by
    have h := Option.eq_none_iff_forall_ne_some.mpr h
    rw [dropPrefix?_append_close hs, Option.map_eq_none_iff] at h ⊢
    exact h
  refine ⟨body, rfl, fun ys => ?_⟩
  rw [afterDeclaration?, hnone (by decide) hquestion, hnone (by decide) hcomment,
    hnone (by decide) hentity, hnone (by decide) hattlist, hnone (by decide) hnotation]
  exact hbody ys

/-- The internal subset of a doctype does not depend on what follows the doctype. -/
theorem closes_of_afterSubset? (h : afterSubset? cs = some rest) :
    Closes '>' afterSubset? some cs rest := by
  fun_induction afterSubset? cs with
  | case1 => cases h
  | case2 cs =>
    refine (closes_of_after? [] h).behind [']'] fun ds r hr => ?_
    rw [List.singleton_append, afterSubset?, if_pos rfl]
    exact hr
  | case3 cs ds hd hne ih =>
    obtain ⟨piece, rfl, hpiece⟩ := closes_of_afterDeclaration? hd
    obtain ⟨body, rfl, hbody⟩ := ih h
    refine ⟨'<' :: (piece ++ '>' :: body), by simp, fun ys => ?_⟩
    rw [List.cons_append, List.append_assoc, List.cons_append, afterSubset?, if_neg hne,
      if_pos rfl]
    split
    · rename_i ds hds
      cases (hpiece _).symm.trans hds
      exact hbody ys
    · rename_i hnone
      cases (hpiece _).symm.trans hnone
  | case4 => cases h
  | case5 c cs hc hlt ih =>
    refine (ih h).behind [c] fun ds r hr => ?_
    rw [List.singleton_append, afterSubset?, if_neg hc, if_neg hlt]
    exact hr

theorem closes_of_afterDoctype? {open? : Option Quote} (h : afterDoctype? open? cs = some rest) :
    Closes '>' (afterDoctype? open?) some cs rest := by
  induction cs generalizing open? with
  | nil => cases h
  | cons c cs ih =>
    cases open? with
    | none =>
      rw [afterDoctype?] at h
      split at h
      · rename_i hc
        cases h
        exact ⟨[], by rw [hc]; rfl, fun ys => by rw [List.nil_append, afterDoctype?, if_pos rfl]⟩
      · rename_i hc
        split at h
        · rename_i hb
          refine (closes_of_afterSubset? h).behind [c] fun ds r hr => ?_
          rw [List.singleton_append, afterDoctype?]
          exact (if_neg hc).trans ((if_pos hb).trans hr)
        · rename_i hb
          refine (ih h).behind [c] fun ds r hr => ?_
          rw [List.singleton_append, afterDoctype?]
          exact (if_neg hc).trans ((if_neg hb).trans hr)
    | some quote => exact (ih h).behind [c] fun ds r hr => hr

/-! ### Tokens -/

variable {t : Token}

theorem closes_of_readUntil {construct : Construct} {token : List Char → Token}
    (mark : List Char) (h : readUntil construct token (mark ++ ['>']) cs = .ok (t, rest)) :
    Closes '>' (readUntil construct token (mark ++ ['>'])) (fun r => .ok (t, r)) cs rest := by
  rw [readUntil] at h
  split at h
  · rename_i content r hb
    cases h
    obtain ⟨body, rfl, hbody⟩ := closes_of_breakOn? mark hb
    exact ⟨body, rfl, fun ys => by rw [readUntil, hbody ys]⟩
  · cases h

theorem closes_of_readComment (h : readComment cs = .ok (t, rest)) :
    Closes '>' readComment (fun r => .ok (t, r)) cs rest := by
  rw [readComment] at h
  split at h
  · rename_i ds hd
    rw [dropPrefix?_eq_some_iff.mp hd]
    refine (closes_of_readUntil ['-', '-'] h).behind _ fun ds r hr => ?_
    rw [readComment, dropPrefix?_append_self]
    exact hr
  · cases h

theorem closes_of_readCdata (h : readCdata cs = .ok (t, rest)) :
    Closes '>' readCdata (fun r => .ok (t, r)) cs rest := by
  rw [readCdata] at h
  split at h
  · rename_i ds hd
    rw [dropPrefix?_eq_some_iff.mp hd]
    refine (closes_of_readUntil [']', ']'] h).behind _ fun ds r hr => ?_
    rw [readCdata, dropPrefix?_append_self]
    exact hr
  · cases h

/-- A doctype is read from its own text. -/
theorem readDoctype_eq {body : List Char}
    (h : afterDoctype? none (body ++ '>' :: rest) = some rest) :
    readDoctype (body ++ '>' :: rest) =
      if isDoctype body then
        match (body.drop 7).dropWhile isXmlBlank with
        | [] => .error ⟨.namelessDoctype, rest⟩
        | content => .ok (.doctype content, rest)
      else .error ⟨.unclosed .doctype, rest⟩ := by
  have hbody :
      (body ++ '>' :: rest).take ((body ++ '>' :: rest).length - rest.length - 1) = body := by
    have hl : (body ++ '>' :: rest).length - rest.length - 1 = body.length := by
      rw [List.length_append, List.length_cons]
      omega
    rw [hl, List.take_left]
  rw [readDoctype, h]
  exact congrArg (β := Reading) (fun body => if isDoctype body then
      match (body.drop 7).dropWhile isXmlBlank with
      | [] => .error ⟨.namelessDoctype, rest⟩
      | content => .ok (.doctype content, rest)
    else .error ⟨.unclosed .doctype, rest⟩) hbody

theorem closes_of_readDoctype (h : readDoctype cs = .ok (t, rest)) :
    Closes '>' readDoctype (fun r => .ok (t, r)) cs rest := by
  cases ha : afterDoctype? none cs with
  | none =>
    rw [readDoctype, ha] at h
    cases h
  | some r =>
    obtain ⟨body, rfl, hbody⟩ := closes_of_afterDoctype? ha
    rw [readDoctype_eq ha] at h
    split at h
    · rename_i hd
      split at h
      · cases h
      · rename_i hc
        cases h
        refine ⟨body, rfl, fun ys => ?_⟩
        rw [readDoctype_eq (hbody ys), if_pos hd]
        split
        · rename_i hn
          exact absurd hn hc
        · rfl
    · cases h

theorem closes_of_readInstruction (h : readInstruction cs = .ok (t, rest)) :
    Closes '>' readInstruction (fun r => .ok (t, r)) cs rest := by
  rw [readInstruction] at h
  split at h
  · rename_i c content r hb
    obtain ⟨body, rfl, hbody⟩ := closes_of_breakOn? ['?'] hb
    refine ⟨body, ?_, fun ys => ?_⟩
    · split at h <;> cases h <;> rfl
    · have hb : breakOn? ['?', '>'] (body ++ '>' :: ys) = some (c :: content, ys) := hbody ys
      rw [readInstruction, hb]
      split at h
      · rename_i hd
        cases h
        exact if_pos hd
      · rename_i hd
        cases h
        exact if_neg hd
  · cases h
  · split at h <;> cases h

theorem closes_of_readEndTag (h : readEndTag cs = .ok (t, rest)) :
    Closes '>' readEndTag (fun r => .ok (t, r)) cs rest := by
  rw [readEndTag] at h
  split at h
  · cases h
  · rename_i content r hs
    cases h
    obtain ⟨body, rfl, hbody⟩ := closes_of_spanTag hs
    exact ⟨body, rfl, fun ys => by rw [readEndTag, hbody ys]⟩

theorem closes_of_readStartTag (h : readStartTag cs = .ok (t, rest)) :
    Closes '>' readStartTag (fun r => .ok (t, r)) cs rest := by
  rw [readStartTag] at h
  split at h
  · cases h
  · rename_i content r hs
    obtain ⟨body, rfl, hbody⟩ := closes_of_spanTag hs
    refine ⟨body, ?_, fun ys => ?_⟩
    · split at h <;> split at h <;> cases h <;> rfl
    · rw [readStartTag, hbody ys]
      split at h <;> split at h <;> cases h <;> simp only [*, if_true, if_false]

theorem closes_of_readBang (h : readMarkup ('!' :: cs) = .ok (t, rest)) :
    Closes '>' (fun ds => readMarkup ('!' :: ds)) (fun r => .ok (t, r)) cs rest := by
  rw [readMarkup, readBang.eq_def] at h
  split at h
  · exact (closes_of_readCdata h).congr fun c hc _ => by cases hc; rfl
  · exact (closes_of_readComment h).congr fun c hc _ => by cases hc; rfl
  · exact (closes_of_readDoctype h).congr fun c hc _ => by cases hc; rfl
  · exact (closes_of_readDoctype h).congr fun c hc _ => by cases hc; rfl
  · cases h

/-- **What begins with an opening bracket** is read from its own text, up to a closing bracket. -/
theorem closes_of_readMarkup (h : readMarkup cs = .ok (t, rest)) :
    Closes '>' readMarkup (fun r => .ok (t, r)) cs rest := by
  cases cs with
  | nil => cases h
  | cons c cs =>
    by_cases hbang : c = '!'
    · subst hbang
      exact (closes_of_readBang h).behind ['!'] fun ds r hr => hr
    by_cases hquestion : c = '?'
    · subst hquestion
      exact (closes_of_readInstruction h).congr fun c hc _ => by cases hc; rfl
    by_cases hslash : c = '/'
    · subst hslash
      exact (closes_of_readEndTag h).behind ['/'] fun ds r hr => hr
    · have hstart (ys : List Char) : readMarkup (c :: ys) = readStartTag (c :: ys) := by
        rw [readMarkup.eq_def]
        split <;> simp_all
      rw [hstart] at h
      exact (closes_of_readStartTag h).congr fun d hd => by cases hd; exact hstart

/-- A reference is read from its own text, up to a semicolon. -/
theorem closes_of_readReference (h : readReference cs = .ok (t, rest)) :
    Closes ';' readReference (fun r => .ok (t, r)) cs rest := by
  rw [readReference] at h
  split at h
  · rename_i body r hs
    cases h
    have hcs := eq_of_splitReference?_eq_some hs
    have hbody : ∀ c ∈ body, isTextReference c = true := by
      rw [splitReference?] at hs
      split at hs
      · cases hs
        exact fun c hc => List.mem_takeWhile_imp hc
      · cases hs
    exact ⟨body, hcs, readReference_eq hbody⟩
  · cases h

theorem Closes.suffix {α : Type} {mark : Char} {read result : List Char → α}
    (h : Closes mark read result cs rest) : rest <:+ cs := by
  obtain ⟨body, rfl, -⟩ := h
  exact (List.suffix_cons mark rest).trans (List.suffix_append body _)

theorem suffix_of_readToken {c : Char} (h : readToken c cs = .ok (t, rest)) : rest <:+ cs := by
  rw [readToken] at h
  split at h
  · exact (closes_of_readMarkup h).suffix
  split at h
  · exact (closes_of_readReference h).suffix
  · cases h
    exact List.dropWhile_suffix isText

/-! ### Attributes -/

theorem suffix_of_valueOf {size : Nat} (h : valueOf size cs = .ok rest) : rest <:+ cs := by
  rw [valueOf] at h
  split at h
  · rename_i ds hds
    cases h
    have hd : '=' :: ds <:+ cs := hds ▸ List.dropWhile_suffix isXmlBlank
    exact (List.dropWhile_suffix isXmlBlank).trans ((List.suffix_cons '=' ds).trans hd)
  · cases h

theorem suffix_of_quoted {size : Nat} {value : List Char}
    (h : quoted size cs = .ok (value, rest)) :
    ∃ quote : Quote, value ++ quote.char :: rest <:+ cs := by
  cases cs with
  | nil => cases h
  | cons c cs =>
    rw [quoted] at h
    split at h
    · cases h
    · rename_i quote _
      refine ⟨quote, List.IsSuffix.trans ?_ (List.suffix_cons c cs)⟩
      split at h
      · cases h
      · rename_i d r hr
        cases h
        have hd : d = quote.char := by
          simpa [hr] using List.head?_dropWhile_not (· != quote.char) cs
        have hcs : cs.takeWhile (· != quote.char) ++ quote.char :: rest = cs := by
          rw [← hd, ← hr, hd, List.takeWhile_append_dropWhile]
        exact ⟨[], hcs⟩

/-- The value of an attribute stands in front of a quote and of what is left. -/
theorem suffix_of_splitAttribute {size : Nat} {seen : KeyedList (List Char) Nat} {c : Char}
    {attr : RawAttribute} (h : splitAttribute size seen c cs = .ok (attr, rest)) :
    ∃ quote : Quote, attr.value ++ quote.char :: rest <:+ cs := by
  simp only [splitAttribute, bind, Except.bind] at h
  split at h
  · cases h
  · rename_i afterEquals hv
    split at h
    · cases h
    · split at h
      · cases h
      · rename_i p hq
        cases h
        obtain ⟨quote, hs⟩ := suffix_of_quoted hq
        exact ⟨quote, hs.trans ((suffix_of_valueOf hv).trans (List.dropWhile_suffix isKey))⟩

/-! ### Names -/

/-- The name in a tag. -/
def Token.tagName? : Token → Option (List Char)
  | startTag name _ => some name
  | emptyTag name _ => some name
  | endTag name => some name
  | _ => none

theorem afterFirst_suffix (mark : Char) (cs : List Char) : afterFirst mark cs <:+ cs := by
  rw [afterFirst]
  split
  · exact List.suffix_refl cs
  · rename_i d rest hd
    exact (List.suffix_cons d rest).trans (hd ▸ List.dropWhile_suffix (· != mark))

theorem isPrefix_endName (content : List Char) : endName content <+: content := by
  rw [endName]
  split
  · exact List.prefix_refl content
  · exact isPrefix_dropWhileEnd isXmlBlank content

private theorem infix_of_readStartTag {name : List Char} (h : readStartTag cs = .ok (t, rest))
    (hn : t.tagName? = some name) : name <:+: cs := by
  have hname {content : List Char} {p : List Char × List (List Char × List Char)}
      (hp : readContent content = .ok p) : p.1 <+: content := by
    obtain ⟨attrs, -, rfl⟩ := Except.map_eq_ok_iff.mp hp
    exact List.takeWhile_prefix _
  rw [readStartTag] at h
  split at h
  · cases h
  · rename_i content r hs
    have hcontent : content <+: cs := ⟨_, (eq_of_spanTag_eq_ok hs).symm⟩
    split at h
    · split at h
      · cases h
      · rename_i hc
        cases h
        cases hn
        exact ((hname hc).trans ((List.dropLast_prefix content).trans hcontent)).isInfix
    · split at h
      · cases h
      · rename_i hc
        cases h
        cases hn
        exact ((hname hc).trans hcontent).isInfix

/-- The name of a tag stands in the text. -/
theorem infix_of_readMarkup {name : List Char} (h : readMarkup cs = .ok (t, rest))
    (hn : t.tagName? = some name) : name <:+: cs := by
  rw [readMarkup.eq_def] at h
  split at h
  · cases h
  · simp only [readBang.eq_def, readComment, readCdata, readDoctype, readUntil] at h
    repeat' split at h
    all_goals cases h
    all_goals cases hn
  · simp only [readInstruction] at h
    repeat' split at h
    all_goals cases h
    all_goals cases hn
  · rename_i ds
    rw [readEndTag] at h
    split at h
    · cases h
    · rename_i content r hs
      cases h
      cases hn
      have hcontent : content <+: ds := ⟨_, (eq_of_spanTag_eq_ok hs).symm⟩
      exact ((isPrefix_endName content).trans hcontent).isInfix.trans
        (List.infix_cons (List.infix_refl ds))
  · exact infix_of_readStartTag h hn

theorem infix_of_readToken {c : Char} {name : List Char} (h : readToken c cs = .ok (t, rest))
    (hn : t.tagName? = some name) : name <:+: cs := by
  rw [readToken] at h
  split at h
  · exact infix_of_readMarkup h hn
  split at h
  · rw [readReference] at h
    split at h
    · cases h
      cases hn
    · cases h
  · cases h
    cases hn

/-! ### Texts that follow -/

/-- A text ends where something else begins. -/
theorem takeWhile_dropWhile_isText {d : Char} (hd : isText d = false) (cs ys : List Char) :
    (cs ++ d :: ys).takeWhile isText = cs.takeWhile isText ∧
      (cs ++ d :: ys).dropWhile isText = cs.dropWhile isText ++ d :: ys := by
  have hend : ¬ isText d = true := Bool.eq_false_iff.mp hd
  induction cs with
  | nil => exact ⟨List.takeWhile_cons_of_neg hend, List.dropWhile_cons_of_neg hend⟩
  | cons c cs ih =>
    rw [List.cons_append, List.takeWhile_cons, List.takeWhile_cons, List.dropWhile_cons,
      List.dropWhile_cons, ih.1, ih.2]
    split
    · exact ⟨rfl, rfl⟩
    · exact ⟨rfl, rfl⟩

/-- A token stays when something is put behind that does not go on a text. -/
theorem readToken_append {c d : Char} (hd : isText d = false)
    (h : readToken c cs = .ok (t, rest)) (ys : List Char) :
    readToken c (cs ++ d :: ys) = .ok (t, rest ++ d :: ys) := by
  have hclosed {mark : Char} {read : List Char → Reading}
      (hc : Closes mark read (fun r => .ok (t, r)) cs rest) :
      read (cs ++ d :: ys) = .ok (t, rest ++ d :: ys) := by
    obtain ⟨body, rfl, hbody⟩ := hc
    rw [List.append_assoc]
    exact hbody _
  rw [readToken] at h ⊢
  split at h
  · exact (if_pos ‹_›).trans (hclosed (closes_of_readMarkup h))
  split at h
  · exact (if_neg ‹_›).trans ((if_pos ‹_›).trans (hclosed (closes_of_readReference h)))
  · cases h
    obtain ⟨htake, hdrop⟩ := takeWhile_dropWhile_isText hd cs ys
    rw [if_neg ‹_›, if_neg ‹_›, htake, hdrop]

/-- So do all tokens of a text. -/
theorem tokens_append {d : Char} (hd : isText d = false) {ts : List Token}
    (h : tokens cs = (ts, none)) (ys : List Char) :
    tokens (cs ++ d :: ys) = (ts ++ (tokens (d :: ys)).1, (tokens (d :: ys)).2) := by
  induction cs using tokens.induct generalizing ts with
  | case1 =>
    rw [tokens] at h
    cases h
    rfl
  | case2 c cs stop hr =>
    rw [tokens] at h
    split at h
    · cases h
    · rename_i hs
      cases hr.symm.trans hs
  | case3 c cs t rest hr us stop? hus ih =>
    rw [tokens_of_readToken hr] at h
    obtain ⟨rfl, hstop⟩ := Prod.mk.inj h
    rw [List.cons_append, tokens_of_readToken (readToken_append hd hr ys),
      ih (Prod.ext rfl hstop), List.cons_append]

/-- What is a fault at the end of a text is still one when a tag is put behind, unless it takes
this tag in. -/
theorem eq_of_readToken_append {c : Char} {stop : Stop} {tag : List Char} (hclose : '>' ∉ tag)
    (hend : ';' ∉ tag) (h : readToken c cs = .error stop)
    (h' : readToken c (cs ++ (tag ++ ['>'])) = .ok (t, rest)) :
    c = '<' ∧ readMarkup (cs ++ (tag ++ ['>'])) = .ok (t, []) := by
  rw [readToken] at h h'
  split at h
  · rename_i hc
    rw [if_pos hc] at h'
    rcases (closes_of_readMarkup h').of_append with ⟨r, hr⟩ | ⟨zs, hzs⟩
    · cases h.symm.trans hr
    · obtain rfl : rest = [] := by
        rcases List.eq_nil_or_concat rest with rfl | ⟨init, last, rfl⟩
        · rfl
        · rw [List.concat_eq_append, ← List.cons_append, ← List.append_assoc] at hzs
          have htag := (List.append_inj' hzs rfl).1
          exact absurd (htag ▸ List.mem_append_right zs List.mem_cons_self) hclose
      exact ⟨hc, h'⟩
  · rename_i hc
    rw [if_neg hc] at h'
    split at h
    · rename_i hamp
      rw [if_pos hamp] at h'
      rcases (closes_of_readReference h').of_append with ⟨r, hr⟩ | ⟨zs, hzs⟩
      · cases h.symm.trans hr
      · have hm : ';' ∈ tag ++ ['>'] := hzs ▸ List.mem_append_right zs List.mem_cons_self
        exact absurd ((List.mem_append.mp hm).resolve_right (by decide)) hend
    · cases h

end MarkupTemplate.Markup
