import MarkupTemplate.Proofs.Markup.Locality

/-!
# Reading tags

A start tag is written as its name and its attributes, each behind a blank, with values in double
quotes. It is read back with the values unescaped, whatever way of escaping was used, as long as
no quote is left in them, and as long as the names mean nothing else where they stand. Names made
of letters, digits and hyphens never do.

## Main definitions

* `MarkupTemplate.Markup.IsTagName` — names of letters, digits and hyphens.
* `MarkupTemplate.Markup.IsAttributeKey` — what can be read as the name of an attribute.
* `MarkupTemplate.Markup.Sealed` — stretches that the end of a tag does not fall into.
* `MarkupTemplate.Markup.attributeMarkup` — attributes as they are written.
* `MarkupTemplate.Markup.Writable` — what can be written as a tag.
* `MarkupTemplate.Markup.Reads` — a stretch of markup with the nodes that it is read as.

## Main results

* `MarkupTemplate.Markup.readAttributes_attributeMarkup`
* `MarkupTemplate.Markup.resume_startTag`, `MarkupTemplate.Markup.resume_emptyTag`,
  `MarkupTemplate.Markup.resume_endTag`
* `MarkupTemplate.Markup.parseChars_element`
-/

namespace MarkupTemplate.Markup

open Dom Text

/-! ### Names -/

/-- The characters of names. -/
def isNameChar (c : Char) : Bool := c.isAlphanum || c == '-'

/-- A name that has no meaning for the reader beyond being a name. -/
def IsTagName (name : List Char) : Prop := name ≠ [] ∧ ∀ c ∈ name, isNameChar c = true

theorem IsTagName.not_mem {name : List Char} (h : IsTagName name) {c : Char}
    (hc : isNameChar c = false) : c ∉ name := fun hm => by
  simp [h.2 c hm] at hc

theorem isXmlBlank_of_isNameChar {c : Char} (h : isNameChar c = true) : isXmlBlank c = false := by
  refine Bool.eq_false_iff.mpr fun hb => ?_
  simp only [isXmlBlank, Bool.or_eq_true, beq_iff_eq] at hb
  rcases hb with ((rfl | rfl) | rfl) | rfl <;> exact absurd h (by decide)

theorem isKey_of_isNameChar {c : Char} (h : isNameChar c = true) : isKey c = true := by
  have he : c ≠ '=' := by
    rintro rfl
    exact absurd h (by decide)
  simp [isKey, he, isXmlBlank_of_isNameChar h]

theorem localName_of_not_mem {name : List Char} (h : ':' ∉ name) :
    localName name = String.ofList name := by
  have hc : ∀ c ∈ name, (c != ':') = true := fun c hc =>
    bne_iff_ne.mpr (ne_of_mem_of_not_mem hc h)
  have hd : name.dropWhile (· != ':') = [] := by
    rw [← List.append_nil name, List.dropWhile_append_of_pos hc]
    rfl
  rw [localName, afterFirst, hd]

theorem ofChar?_eq_none {c : Char} (hs : c ≠ '\'') (hd : c ≠ '"') : Quote.ofChar? c = none := by
  rw [Quote.ofChar?, if_neg hs, if_neg hd]

theorem ne_and_ofChar?_of_isNameChar {c : Char} (h : isNameChar c = true) :
    c ≠ '>' ∧ Quote.ofChar? c = none := by
  have hne {d : Char} (hd : isNameChar d = false) : c ≠ d := ne_of_class h hd
  exact ⟨hne (by decide), ofChar?_eq_none (hne (by decide)) (hne (by decide))⟩

/-- What can be read as the name of an attribute. -/
structure IsAttributeKey (key : List Char) : Prop where
  ne_nil : key ≠ []
  head : ∀ c ∈ key.head?, isXmlBlank c = false
  tail : ∀ c ∈ key.tail, isKey c = true

theorem IsTagName.isAttributeKey {key : List Char} (h : IsTagName key) : IsAttributeKey key where
  ne_nil := h.1
  head c hc := isXmlBlank_of_isNameChar (h.2 c (List.mem_of_mem_head? hc))
  tail c hc := isKey_of_isNameChar (h.2 c (List.mem_of_mem_tail hc))

/-! ### The extent of a tag -/

/-- A stretch without quotes and closing brackets belongs to the tag. -/
theorem spanTag_append {cs : List Char} (h : ∀ c ∈ cs, c ≠ '>' ∧ Quote.ofChar? c = none)
    (rest : List Char) :
    spanTag none (cs ++ rest) = (spanTag none rest).map fun p => (cs ++ p.1, p.2) := by
  induction cs with
  | nil =>
    rw [List.nil_append]
    cases spanTag none rest <;> rfl
  | cons c cs ih =>
    obtain ⟨⟨hc, hq⟩, hcs⟩ := List.forall_mem_cons.mp h
    rw [List.cons_append, spanTag]
    simp only [if_neg hc, hq, ih hcs]
    cases spanTag none rest <;> rfl

private theorem spanTag_double {raw : List Char} (h : '"' ∉ raw) (rest : List Char) :
    spanTag (some .double) (raw ++ '"' :: rest) =
      (spanTag none rest).map fun p => (raw ++ '"' :: p.1, p.2) := by
  induction raw with
  | nil => cases hs : spanTag none rest <;> simp [spanTag, Quote.char, hs]
  | cons c raw ih =>
    have hc : c ≠ Quote.double.char := fun e => h (e ▸ List.mem_cons_self)
    rw [List.cons_append, spanTag]
    simp only [if_neg hc, ih fun hm => h (List.mem_cons_of_mem c hm)]
    cases spanTag none rest <;> rfl

/-- A quoted value belongs to the tag, whatever stands in it. -/
theorem spanTag_quoted {raw : List Char} (h : '"' ∉ raw) (rest : List Char) :
    spanTag none ('"' :: (raw ++ '"' :: rest)) =
      (spanTag none rest).map fun p => ('"' :: (raw ++ '"' :: p.1), p.2) := by
  rw [spanTag, show Quote.ofChar? '"' = some .double from rfl]
  simp only [spanTag_double h, if_neg (show '"' ≠ '>' by decide)]
  cases spanTag none rest <;> rfl

/-- A stretch whose quotes are paired, with no closing bracket outside of them. -/
def Sealed (cs : List Char) : Prop := spanTag none (cs ++ ['>']) = .ok (cs, [])

instance (cs : List Char) : Decidable (Sealed cs) := inferInstanceAs (Decidable (_ = _))

theorem Sealed.spanTag_append {cs : List Char} (h : Sealed cs) (rest : List Char) :
    spanTag none (cs ++ '>' :: rest) = .ok (cs, rest) := spanTag_content h rest

theorem IsTagName.sealed {name : List Char} (h : IsTagName name) : Sealed name := by
  rw [Sealed, Markup.spanTag_append fun c hc => ne_and_ofChar?_of_isNameChar (h.2 c hc)]
  exact congrArg (fun cs => Except.ok (cs, [])) (List.append_nil name)

/-! ### Attributes -/

/-- Attributes as they are written, with values in double quotes. -/
def attributeMarkup (esc : List Char → List Char) : List (List Char × List Char) → List Char
  | [] => []
  | (key, value) :: attrs =>
    ' ' :: (key ++ '=' :: '"' :: (esc value ++ '"' :: attributeMarkup esc attrs))

/-- Attributes that are read back from what is written: distinct names, and values that can be
quoted and unescaped. -/
structure Readable (esc : List Char → List Char) (attrs : List (List Char × List Char)) : Prop where
  names : ∀ attr ∈ attrs, IsAttributeKey attr.1
  nodup : (attrs.map Prod.fst).Nodup
  quoted : ∀ attr ∈ attrs, '"' ∉ esc attr.2
  unescape : ∀ attr ∈ attrs, unescape (esc attr.2) = .ok attr.2

variable {esc : List Char → List Char} {attrs : List (List Char × List Char)}

theorem Readable.tail {attr : List Char × List Char} (h : Readable esc (attr :: attrs)) :
    Readable esc attrs where
  names a ha := h.names a (List.mem_cons_of_mem attr ha)
  nodup := (List.nodup_cons.mp h.nodup).2
  quoted a ha := h.quoted a (List.mem_cons_of_mem attr ha)
  unescape a ha := h.unescape a (List.mem_cons_of_mem attr ha)

theorem splitAttribute_eq (size : Nat) {seen : KeyedList (List Char) Nat} {c : Char}
    {cs raw : List Char} (hcs : ∀ d ∈ cs, isKey d = true) (hraw : '"' ∉ raw)
    (hseen : seen.get? (c :: cs) = none) (rest : List Char) :
    splitAttribute size seen c (cs ++ '=' :: '"' :: (raw ++ '"' :: rest)) =
      .ok (⟨c :: cs, raw⟩, rest) := by
  have htake : (cs ++ '=' :: '"' :: (raw ++ '"' :: rest)).takeWhile isKey = cs := by
    rw [List.takeWhile_append_of_pos hcs]
    exact List.append_nil cs
  have hdrop : (cs ++ '=' :: '"' :: (raw ++ '"' :: rest)).dropWhile isKey =
      '=' :: '"' :: (raw ++ '"' :: rest) := List.dropWhile_append_of_pos hcs
  have hne : ∀ d ∈ raw, (d != Quote.double.char) = true := fun d hd =>
    bne_iff_ne.mpr (ne_of_mem_of_not_mem hd hraw)
  have hvalue : (raw ++ '"' :: rest).takeWhile (· != Quote.double.char) = raw := by
    rw [List.takeWhile_append_of_pos hne]
    exact List.append_nil raw
  have hrest : (raw ++ '"' :: rest).dropWhile (· != Quote.double.char) = '"' :: rest :=
    List.dropWhile_append_of_pos hne
  have hval : valueOf size ('=' :: '"' :: (raw ++ '"' :: rest)) =
      .ok ('"' :: (raw ++ '"' :: rest)) := rfl
  have hquoted : quoted size ('"' :: (raw ++ '"' :: rest)) = .ok (raw, rest) := by
    rw [quoted, show Quote.ofChar? '"' = some .double from rfl]
    simp only [hrest, hvalue]
  rw [splitAttribute, htake, hdrop, hval]
  simp only [bind, Except.bind, hseen, hquoted]
  rfl

/-- The next attribute is read, and then the others. -/
theorem readAttributesFrom_of_split {size : Nat} {seen : KeyedList (List Char) Nat}
    {cs ds rest value : List Char} {c : Char} {attr : RawAttribute}
    (hc : cs.dropWhile isXmlBlank = c :: ds)
    (hs : splitAttribute size seen c ds = .ok (attr, rest)) (hu : unescape attr.value = .ok value) :
    readAttributesFrom size seen cs =
      (readAttributesFrom size (seen.put attr.key (size - utf8Length (c :: ds))) rest).map
        fun tail => (attr.key, value) :: tail := by
  rw [readAttributesFrom]
  split
  · rename_i hn
    cases hc.symm.trans hn
  · rename_i c' ds' hc'
    cases hc.symm.trans hc'
    split
    · rename_i he
      cases hs.symm.trans he
    · rename_i attr' rest' ha
      cases hs.symm.trans ha
      simp only [hu]
      rfl

theorem readAttributesFrom_attributeMarkup (size : Nat) {seen : KeyedList (List Char) Nat}
    (h : Readable esc attrs) (hseen : ∀ attr ∈ attrs, seen.get? attr.1 = none) :
    readAttributesFrom size seen (attributeMarkup esc attrs) = .ok attrs := by
  induction attrs generalizing seen with
  | nil =>
    rw [attributeMarkup, readAttributesFrom]
    rfl
  | cons attr attrs ih =>
    obtain ⟨key, value⟩ := attr
    have hkey := h.names _ List.mem_cons_self
    obtain ⟨c, cs, rfl⟩ := List.exists_cons_of_ne_nil hkey.ne_nil
    have hb : ¬ isXmlBlank c = true := by simp [hkey.head c rfl]
    have hdrop : (attributeMarkup esc ((c :: cs, value) :: attrs)).dropWhile isXmlBlank =
        c :: (cs ++ '=' :: '"' :: (esc value ++ '"' :: attributeMarkup esc attrs)) := by
      rw [attributeMarkup, List.dropWhile_cons_of_pos (by decide), List.cons_append,
        List.dropWhile_cons_of_neg hb]
    have htail : ∀ d ∈ cs, isKey d = true := hkey.tail
    have hsplit := splitAttribute_eq size htail
      (h.quoted _ List.mem_cons_self) (hseen _ List.mem_cons_self) (attributeMarkup esc attrs)
    rw [readAttributesFrom_of_split hdrop hsplit (h.unescape _ List.mem_cons_self)]
    rw [ih h.tail fun a ha => ?_]
    · rfl
    · have hka : c :: cs ≠ a.1 := by
        intro he
        refine (List.nodup_cons.mp h.nodup).1 ?_
        show c :: cs ∈ attrs.map Prod.fst
        rw [he]
        exact List.mem_map_of_mem ha
      rw [KeyedList.get?_put_of_ne hka]
      exact hseen a (List.mem_cons_of_mem _ ha)

/-- Attributes are read back from what is written. -/
theorem readAttributes_attributeMarkup (size : Nat) (h : Readable esc attrs) :
    readAttributes size (attributeMarkup esc attrs) = .ok attrs :=
  readAttributesFrom_attributeMarkup size h fun _ _ => rfl

/-! ### Start tags -/

/-- The content of a start tag as it is written. -/
def tagMarkup (esc : List Char → List Char) (name : List Char)
    (attrs : List (List Char × List Char)) : List Char := name ++ attributeMarkup esc attrs

/-- What can be written as a tag and is read back: the name neither ends itself nor the tag, and
it begins and ends no other kind of markup. -/
structure Writable (esc : List Char → List Char) (name : List Char)
    (attrs : List (List Char × List Char)) : Prop where
  solid : ∀ c ∈ name, isXmlBlank c = false
  head : ∀ c ∈ name.head?, c ≠ '!' ∧ c ≠ '?' ∧ c ≠ '/'
  last : attrs = [] → name.getLast? ≠ some '/'
  unqualified : ':' ∉ name
  sealedTag : Sealed (tagMarkup esc name attrs)
  sealedName : Sealed name

section TagNames

variable {name : List Char} (hn : IsTagName name) (hk : ∀ attr ∈ attrs, IsTagName attr.1)
  (h : Readable esc attrs)

include hk h in
theorem spanTag_attributeMarkup (rest : List Char) :
    spanTag none (attributeMarkup esc attrs ++ rest) =
      (spanTag none rest).map fun p => (attributeMarkup esc attrs ++ p.1, p.2) := by
  induction attrs with
  | nil =>
    rw [attributeMarkup, List.nil_append]
    cases spanTag none rest <;> rfl
  | cons attr attrs ih =>
    obtain ⟨key, value⟩ := attr
    have hkey : ∀ c ∈ ' ' :: (key ++ ['=']), c ≠ '>' ∧ Quote.ofChar? c = none := by
      intro c hc
      rcases List.mem_cons.mp hc with rfl | hc
      · decide
      · rcases List.mem_append.mp hc with hc | hc
        · exact ne_and_ofChar?_of_isNameChar ((hk _ List.mem_cons_self).2 c hc)
        · cases List.mem_singleton.mp hc
          decide
    have he : attributeMarkup esc ((key, value) :: attrs) ++ rest =
        ' ' :: (key ++ ['=']) ++
          '"' :: (esc value ++ '"' :: (attributeMarkup esc attrs ++ rest)) := by
      simp [attributeMarkup]
    rw [he, spanTag_append hkey, spanTag_quoted (h.quoted _ List.mem_cons_self),
      ih (fun attr ha => hk attr (List.mem_cons_of_mem _ ha)) h.tail]
    cases spanTag none rest <;> simp [Except.map, attributeMarkup]

include hn hk h

/-- A name with attributes belongs to the tag. -/
theorem spanTag_tagMarkup (rest : List Char) :
    spanTag none (tagMarkup esc name attrs ++ rest) =
      (spanTag none rest).map fun p => (tagMarkup esc name attrs ++ p.1, p.2) := by
  rw [tagMarkup, List.append_assoc,
    spanTag_append fun c hc => ne_and_ofChar?_of_isNameChar (hn.2 c hc),
    spanTag_attributeMarkup hk h]
  cases spanTag none rest <;> simp [Except.map]

/-- Names without a meaning can be written. -/
theorem IsTagName.writable : Writable esc name attrs where
  solid c hc := isXmlBlank_of_isNameChar (hn.2 c hc)
  head c hc := by
    have hm : c ∈ name := List.mem_of_mem_head? hc
    exact ⟨ne_of_mem_of_not_mem hm (hn.not_mem (by decide)),
      ne_of_mem_of_not_mem hm (hn.not_mem (by decide)),
      ne_of_mem_of_not_mem hm (hn.not_mem (by decide))⟩
  last _ hl := hn.not_mem (by decide) (List.mem_of_getLast? hl)
  unqualified := hn.not_mem (by decide)
  sealedTag := by
    rw [Sealed, spanTag_tagMarkup hn hk h]
    exact congrArg (fun cs => Except.ok (cs, [])) (List.append_nil _)
  sealedName := hn.sealed

end TagNames

theorem readable_nil : Readable esc [] := ⟨nofun, List.nodup_nil, nofun, nofun⟩

theorem IsTagName.writable_nil {name : List Char} (hn : IsTagName name) : Writable esc name [] :=
  hn.writable nofun readable_nil

private theorem getLast?_attributeMarkup (attr : List Char × List Char) :
    (attributeMarkup esc (attr :: attrs)).getLast? = some '"' := by
  induction attrs generalizing attr with
  | nil => simp [attributeMarkup, List.getLast?_cons]
  | cons next attrs ih =>
    rw [attributeMarkup]
    simp [List.getLast?_cons, ih next]

/-- A tag that is written so is not taken for an empty one. -/
theorem getLast?_tagMarkup {name : List Char} (hn : Writable esc name attrs) :
    (tagMarkup esc name attrs).getLast? ≠ some '/' := by
  rw [tagMarkup, List.getLast?_append]
  cases attrs with
  | nil => exact hn.last rfl
  | cons attr attrs =>
    rw [getLast?_attributeMarkup]
    exact fun h => absurd (Option.some.inj h) (by decide)

theorem readContent_tagMarkup {name : List Char} (hn : Writable esc name attrs)
    (h : Readable esc attrs) :
    readContent (tagMarkup esc name attrs) = .ok (name, attrs) := by
  have hname : ∀ c ∈ name, (! isXmlBlank c) = true := fun c hc => by
    simp [hn.solid c hc]
  have hblank : (attributeMarkup esc attrs).takeWhile (! isXmlBlank ·) = [] ∧
      (attributeMarkup esc attrs).dropWhile (! isXmlBlank ·) = attributeMarkup esc attrs := by
    cases attrs <;> exact ⟨rfl, rfl⟩
  rw [readContent, tagMarkup, List.takeWhile_append_of_pos hname,
    List.dropWhile_append_of_pos hname, hblank.1, hblank.2, readAttributes_attributeMarkup _ h,
    List.append_nil]
  rfl

/-- What begins no other markup begins a start tag. -/
theorem readToken_of_head {c : Char} {cs : List Char} (h : c ≠ '!' ∧ c ≠ '?' ∧ c ≠ '/') :
    readToken '<' (c :: cs) = readStartTag (c :: cs) := by
  rw [readToken, if_pos rfl, readMarkup.eq_def]
  split
  · rename_i he
    cases he
  · rename_i he
    exact absurd (List.cons.inj he).1 h.1
  · rename_i he
    exact absurd (List.cons.inj he).1 h.2.1
  · rename_i he
    exact absurd (List.cons.inj he).1 h.2.2
  · rfl

/-- The first character of a tag decides that it is a start tag. It is `d` in a tag without a name
and without attributes. -/
theorem readToken_tagMarkup {name : List Char} (hn : Writable esc name attrs) {d : Char}
    (hd : name = [] → d ≠ '!' ∧ d ≠ '?' ∧ d ≠ '/') (cs : List Char) :
    readToken '<' (tagMarkup esc name attrs ++ d :: cs) =
      readStartTag (tagMarkup esc name attrs ++ d :: cs) := by
  cases name with
  | cons c name => exact readToken_of_head (hn.head c rfl)
  | nil =>
    cases attrs with
    | nil => exact readToken_of_head (hd rfl)
    | cons attr attrs => exact readToken_of_head (by decide)

variable {whole : List Char} {mode : Mode} {b : Builder}

/-- A start tag is read with the attributes that were written. -/
theorem readToken_startTag {name : List Char} (hn : Writable esc name attrs)
    (h : Readable esc attrs) (rest : List Char) :
    readToken '<' (tagMarkup esc name attrs ++ '>' :: rest) = .ok (.startTag name attrs, rest) := by
  rw [readToken_tagMarkup hn (fun _ => by decide), readStartTag,
    hn.sealedTag.spanTag_append rest]
  simp only [if_neg (getLast?_tagMarkup hn), readContent_tagMarkup hn h]

/-- So is a tag without content. -/
theorem readToken_emptyTag {name : List Char} (hn : IsTagName name)
    (hk : ∀ attr ∈ attrs, IsTagName attr.1) (h : Readable esc attrs) (rest : List Char) :
    readToken '<' (tagMarkup esc name attrs ++ '/' :: '>' :: rest) =
      .ok (.emptyTag name attrs, rest) := by
  have hs : spanTag none (tagMarkup esc name attrs ++ '/' :: '>' :: rest) =
      .ok (tagMarkup esc name attrs ++ ['/'], rest) := by
    rw [spanTag_tagMarkup hn hk h]
    rfl
  rw [readToken_tagMarkup (hn.writable hk h) (fun he => absurd he hn.1), readStartTag, hs]
  simp only [List.getLast?_concat, if_pos, List.dropLast_concat,
    readContent_tagMarkup (hn.writable hk h) h]

/-- A start tag opens an element with the attributes that were written. -/
theorem resume_startTag {name : List Char} (hn : Writable esc name attrs) (h : Readable esc attrs)
    (hv : mode.isVoid (String.ofList name) = false) (rest : List Char) :
    resume whole mode b ('<' :: (tagMarkup esc name attrs ++ '>' :: rest)) =
      resume whole mode ({ b with allowance := b.allowance + 1 }.openElement (String.ofList name)
        (Builder.attributes attrs)) rest := by
  rw [resume_of_readToken (readToken_startTag hn h rest), Builder.step]
  simp only [localName_of_not_mem hn.unqualified, hv]
  rfl

/-- A tag without content is read as an element without children. -/
theorem resume_emptyTag {name : List Char} (hn : IsTagName name)
    (hk : ∀ attr ∈ attrs, IsTagName attr.1) (h : Readable esc attrs) (rest : List Char) :
    resume whole mode b ('<' :: (tagMarkup esc name attrs ++ '/' :: '>' :: rest)) =
      resume whole mode (b.push (.element (String.ofList name) (Builder.attributes attrs) []))
        rest := by
  rw [resume_of_readToken (readToken_emptyTag hn hk h rest), Builder.step,
    localName_of_not_mem (hn.not_mem (by decide))]
  rfl

/-! ### End tags -/

/-- A name is not cut where it ends. -/
theorem endName_append {name : List Char} (hn : IsTagName name) (cs : List Char) :
    endName (cs ++ name) = cs ++ name := by
  obtain ⟨c, ds, hc⟩ := List.exists_cons_of_ne_nil (List.reverse_ne_nil_iff.mpr hn.1)
  have hm : c ∈ name := List.mem_reverse.mp (hc ▸ List.mem_cons_self)
  have hb : ¬ isXmlBlank c = true := by simp [isXmlBlank_of_isNameChar (hn.2 c hm)]
  have hd : dropWhileEnd isXmlBlank (cs ++ name) = cs ++ name := by
    rw [dropWhileEnd, List.reverse_append, hc, List.cons_append, List.dropWhile_cons_of_neg hb,
      ← List.cons_append, ← hc, ← List.reverse_append, List.reverse_reverse]
  rw [endName, hd]
  split <;> rfl

theorem endName_of_solid {name : List Char} (h : ∀ c ∈ name, isXmlBlank c = false) :
    endName name = name := by
  have hd : dropWhileEnd isXmlBlank name = name := by
    have hr : name.reverse.dropWhile isXmlBlank = name.reverse := by
      cases hn : name.reverse with
      | nil => rfl
      | cons c ds =>
        have hm : c ∈ name := List.mem_reverse.mp (hn ▸ List.mem_cons_self)
        exact List.dropWhile_cons_of_neg (by simp [h c hm])
    rw [dropWhileEnd, hr, List.reverse_reverse]
  rw [endName, hd]
  split <;> rfl

/-- An end tag is read with the name that was written. -/
theorem readToken_endTag {name : List Char} (hn : Writable esc name attrs) (rest : List Char) :
    readToken '<' ('/' :: (name ++ '>' :: rest)) = .ok (.endTag name, rest) := by
  show readEndTag (name ++ '>' :: rest) = _
  rw [readEndTag, hn.sealedName.spanTag_append rest]
  simp only [endName_of_solid hn.solid]

/-- An end tag closes the innermost open element, if it has its name. -/
theorem resume_endTag {name : List Char} (hn : Writable esc name attrs) {e : OpenElement}
    {es : List OpenElement} (ho : b.flush.opened = e :: es) (he : e.name = String.ofList name)
    {allowance : Nat} (ha : b.allowance = allowance + 1)
    (hv : mode.isVoid (String.ofList name) = false) (rest : List Char) :
    resume whole mode b ('<' :: '/' :: (name ++ '>' :: rest)) =
      resume whole mode ({ b.flush with opened := es, allowance }.add e.node) rest := by
  rw [resume_of_readToken (readToken_endTag hn rest), Builder.step, Builder.endTag, ha]
  simp only [localName_of_not_mem hn.unqualified, hv, Builder.close, Builder.flush_withAllowance,
    ho, he]
  rfl

/-! ### Elements -/

/-- A stretch of markup that is read as these nodes, whatever stands around it. Text that ends the
stretch may still be pending. -/
def Reads (mode : Mode) (cs : List Char) (ns : List Node) : Prop :=
  ∀ whole b rest, b.pending = [] → ∃ b',
    resume whole mode b (cs ++ rest) = resume whole mode b' rest ∧ b'.flush = b.extend ns

/-- An element is read as that around the nodes of its content. -/
theorem resume_element {name : List Char} (hn : Writable esc name attrs) (h : Readable esc attrs)
    (hv : mode.isVoid (String.ofList name) = false) {inner : List Char} {ns : List Node}
    (hi : Reads mode inner ns) (rest : List Char) :
    resume whole mode b ('<' :: (tagMarkup esc name attrs ++ '>' ::
        (inner ++ '<' :: '/' :: (name ++ '>' :: rest)))) =
      resume whole mode (b.push (.element (String.ofList name) (Builder.attributes attrs) ns))
        rest := by
  have hflush := Builder.flush_withAllowance b (b.allowance + 1)
  obtain ⟨b', hr, hb'⟩ := hi whole ({ b with allowance := b.allowance + 1 }.openElement
    (String.ofList name) (Builder.attributes attrs)) ('<' :: '/' :: (name ++ '>' :: rest))
    (Builder.pending_flush _)
  rw [resume_startTag hn h hv, hr]
  rw [Builder.openElement, hflush, Builder.extend_opened] at hb'
  have ha : b'.allowance = b.allowance + 1 := by
    rw [← Builder.allowance_flush, hb']
  rw [resume_endTag hn (by rw [hb']) rfl ha hv, hb']
  simp only [Builder.pending_flush, Builder.eta_flush, OpenElement.node, List.append_nil,
    List.reverse_reverse]
  rfl

theorem Reads.element {name : List Char} (hn : Writable esc name attrs) (h : Readable esc attrs)
    (hv : mode.isVoid (String.ofList name) = false) {inner : List Char} {ns : List Node}
    (hi : Reads mode inner ns) :
    Reads mode ('<' :: (tagMarkup esc name attrs ++ '>' ::
        (inner ++ '<' :: '/' :: (name ++ ['>']))))
      [.element (String.ofList name) (Builder.attributes attrs) ns] := by
  intro whole b rest hb
  have he : '<' :: (tagMarkup esc name attrs ++ '>' :: (inner ++ '<' :: '/' :: (name ++ ['>']))) ++
      rest = '<' :: (tagMarkup esc name attrs ++ '>' ::
        (inner ++ '<' :: '/' :: (name ++ '>' :: rest))) := by simp
  refine ⟨_, he ▸ resume_element hn h hv hi rest, ?_⟩
  rw [Builder.flush_push, Builder.flush_of_pending hb]
  rfl

/-- Markup that is one element describes just this. -/
theorem parseChars_element {name : List Char} (hn : Writable esc name attrs)
    (h : Readable esc attrs) (hv : mode.isVoid (String.ofList name) = false)
    {inner : List Char} {ns : List Node} (hi : Reads mode inner ns) :
    parseChars mode ('<' :: (tagMarkup esc name attrs ++ '>' ::
        (inner ++ '<' :: '/' :: (name ++ ['>'])))) =
      .ok [.element (String.ofList name) (Builder.attributes attrs) ns] := by
  rw [parseChars_eq_resume]
  exact (resume_element hn h hv hi []).trans resume_nil

end MarkupTemplate.Markup
