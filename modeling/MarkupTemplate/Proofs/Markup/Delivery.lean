import MarkupTemplate.Proofs.Markup.Labels
import MarkupTemplate.Proofs.Markup.RoundTrip

/-!
# What reading delivers

The parts of a forest are pieces of the text that it was read from, and they keep traces of where
they stood: a name holds no blank, a comment does not hold the mark that closes comments, and a
doctype is closed by the bracket behind it. Of a text without ampersands nothing is unescaped, so
the pieces are there as they stand.

This is what makes literal markup readable again. A comment is read back from its markup in any
case, a doctype unless it is empty, and an instruction unless its target is that of a declaration.

## Main definitions

* `MarkupTemplate.Markup.Token.ReadFrom` — how the parts of a token stand in a text.
* `MarkupTemplate.Markup.Delivered` — labels of nodes that a text may have.

## Main results

* `MarkupTemplate.Markup.readFrom_of_mem_tokens`
* `MarkupTemplate.Markup.afterDoctype?_trim` — a doctype ends where it did without its blanks.
* `MarkupTemplate.Markup.delivered_of_parseChars` — what is read of a text without ampersands.
-/

namespace MarkupTemplate.Markup

open Dom Text

variable {cs content rest : List Char} {t : Token}

/-! ### Attributes -/

theorem key_of_splitAttribute {size : Nat} {seen : KeyedList (List Char) Nat} {c : Char}
    {attr : RawAttribute} (h : splitAttribute size seen c cs = .ok (attr, rest)) :
    attr.key = c :: cs.takeWhile isKey ∧ seen.get? attr.key = none := by
  simp only [splitAttribute, bind, Except.bind] at h
  split at h
  · cases h
  · split at h
    · cases h
    · rename_i hseen
      split at h
      · cases h
      · cases h
        exact ⟨rfl, hseen⟩

/-- The keys of attributes are distinct, and new among those seen before. -/
theorem keys_of_readAttributesFrom {size : Nat} {seen : KeyedList (List Char) Nat}
    {attrs : List (List Char × List Char)} (h : readAttributesFrom size seen cs = .ok attrs) :
    (∀ attr ∈ attrs, IsAttributeKey attr.1 ∧ seen.get? attr.1 = none) ∧
      (attrs.map Prod.fst).Nodup := by
  fun_induction readAttributesFrom size seen cs generalizing attrs with
  | case1 =>
    cases h
    exact ⟨nofun, List.nodup_nil⟩
  | case2 => cases h
  | case3 => cases h
  | case4 seen cs c ds hc attr rest hs value hu =>
    rename_i ih
    obtain ⟨tail, ht, h⟩ := Except.bind_eq_ok_iff.mp h
    cases h
    obtain ⟨hkey, hnone⟩ := key_of_splitAttribute hs
    obtain ⟨hkeys, hnodup⟩ := ih ht
    have hhead : isXmlBlank c = false := by
      simpa [hc] using List.head?_dropWhile_not isXmlBlank cs
    have hattr : IsAttributeKey attr.key := by
      rw [hkey]
      exact ⟨List.cons_ne_nil _ _, fun d hd => Option.some.inj hd ▸ hhead,
        List.all_eq_true.mp List.all_takeWhile⟩
    have hne : ∀ a ∈ tail, attr.key ≠ a.1 := by
      rintro a ha he
      have hnew := (hkeys a ha).2
      rw [← he, KeyedList.get?_put_self] at hnew
      cases hnew
    refine ⟨List.forall_mem_cons.mpr ⟨⟨hattr, hnone⟩, fun a ha => ⟨(hkeys a ha).1, ?_⟩⟩,
      List.nodup_cons.mpr ⟨fun hm => ?_, hnodup⟩⟩
    · rw [← KeyedList.get?_put_of_ne (hne a ha)]
      exact (hkeys a ha).2
    · obtain ⟨a, ha, he⟩ := List.mem_map.mp hm
      exact hne a ha he.symm

/-- Without ampersands the values of attributes stand in the text. -/
theorem infix_of_readAttributesFrom {size : Nat} {seen : KeyedList (List Char) Nat}
    {attrs : List (List Char × List Char)} (hamp : '&' ∉ cs)
    (h : readAttributesFrom size seen cs = .ok attrs) : ∀ attr ∈ attrs, attr.2 <:+: cs := by
  fun_induction readAttributesFrom size seen cs generalizing attrs with
  | case1 =>
    cases h
    exact nofun
  | case2 => cases h
  | case3 => cases h
  | case4 seen cs c ds hc attr rest hs value hu =>
    rename_i ih
    obtain ⟨tail, ht, h⟩ := Except.bind_eq_ok_iff.mp h
    cases h
    obtain ⟨quote, hq⟩ := suffix_of_splitAttribute hs
    have hds : c :: ds <:+ cs := hc ▸ List.dropWhile_suffix isXmlBlank
    have hsuffix : attr.value ++ quote.char :: rest <:+ cs :=
      hq.trans ((List.suffix_cons c ds).trans hds)
    have hraw : attr.value <:+: cs := (List.prefix_append _ _).isInfix.trans hsuffix.isInfix
    have hrest : rest <:+ cs :=
      ((List.suffix_cons _ rest).trans (List.suffix_append _ _)).trans hsuffix
    obtain rfl : value = attr.value := by
      have hself := unescape_self fun hm => hamp (hraw.subset hm)
      exact Except.ok.inj (hu.symm.trans hself)
    exact List.forall_mem_cons.mpr ⟨hraw, fun a ha =>
      (ih (fun hm => hamp (hrest.subset hm)) ht a ha).trans hrest.isInfix⟩

/-! ### Tokens -/

/-- How the parts of a token stand in the text that it is read from. -/
def Token.ReadFrom (cs : List Char) : Token → Prop
  | startTag name attrs => ∃ content, content <:+: cs ∧ readContent content = .ok (name, attrs)
  | emptyTag name attrs => ∃ content, content <:+: cs ∧ readContent content = .ok (name, attrs)
  | endTag _ => True
  | text content => content <:+: cs
  | reference _ => '&' ∈ cs
  | cdata content => content <:+: cs
  | comment content => content <:+: cs ∧ ¬ ['-', '-', '>'] <:+: content
  | doctype content => ∃ keyword rest, content <:+: cs ∧ content ≠ [] ∧
      (∀ c ∈ keyword, c ≠ '>' ∧ c ≠ '[' ∧ Quote.ofChar? c = none) ∧
        afterDoctype? none (keyword ++ (content ++ '>' :: rest)) = some rest
  | instruction content => content <:+: cs ∧ ¬ ['?', '>'] <:+: '?' :: content
  | declaration _ => True

theorem Token.ReadFrom.of_infix {ds : List Char} (h : t.ReadFrom cs) (hi : cs <:+: ds) :
    t.ReadFrom ds := by
  cases t with
  | startTag | emptyTag =>
    obtain ⟨content, hc, hr⟩ := h
    exact ⟨content, hc.trans hi, hr⟩
  | endTag | declaration => trivial
  | text | cdata => exact List.IsInfix.trans h hi
  | reference => exact hi.subset h
  | comment | instruction => exact ⟨h.1.trans hi, h.2⟩
  | doctype =>
    obtain ⟨keyword, rest, hc, hd⟩ := h
    exact ⟨keyword, rest, hc.trans hi, hd⟩

theorem infix_of_readUntil {construct : Construct} {token : List Char → Token}
    {mark : List Char} (hm : mark ≠ []) (h : readUntil construct token mark cs = .ok (t, rest)) :
    ∃ content, t = token content ∧ content <:+: cs ∧ ¬ mark <:+: content := by
  rw [readUntil] at h
  split at h
  · rename_i content r hb
    cases h
    refine ⟨content, rfl, ?_, not_infix_of_breakOn? hm hb⟩
    rw [eq_of_breakOn?_eq_some hb, List.append_assoc]
    exact (List.prefix_append _ _).isInfix
  · cases h

/-- The characters of the keyword of doctypes end none. -/
private theorem neutral_of_toLower {c : Char} (h : c.toLower ∈ "doctype".toList) :
    c ≠ '>' ∧ c ≠ '[' ∧ Quote.ofChar? c = none := by
  have hne {d : Char} (hd : d.toLower ∉ "doctype".toList) : c ≠ d := by
    rintro rfl
    exact hd h
  exact ⟨hne (by decide), hne (by decide), ofChar?_eq_none (hne (by decide)) (hne (by decide))⟩

theorem neutral_of_isBlank {c : Char} (h : isBlank c = true) :
    c ≠ '>' ∧ c ≠ '[' ∧ Quote.ofChar? c = none := by
  have hne {d : Char} (hd : isBlank d = false) : c ≠ d := ne_of_class h hd
  exact ⟨hne (by decide), hne (by decide), ofChar?_eq_none (hne (by decide)) (hne (by decide))⟩

theorem readFrom_of_readDoctype (h : readDoctype cs = .ok (t, rest)) : t.ReadFrom cs := by
  cases ha : afterDoctype? none cs with
  | none =>
    rw [readDoctype, ha] at h
    cases h
  | some r =>
    obtain ⟨body, rfl, -⟩ := closes_of_afterDoctype? ha
    rw [readDoctype_eq ha] at h
    split at h
    · rename_i hd
      split at h
      · cases h
      · rename_i hne
        cases h
        have hbody : body.take 7 ++ ((body.drop 7).takeWhile isXmlBlank ++
            (body.drop 7).dropWhile isXmlBlank) = body := by
          rw [List.takeWhile_append_dropWhile, List.take_append_drop]
        refine ⟨body.take 7 ++ (body.drop 7).takeWhile isXmlBlank, rest, ?_, hne, ?_, ?_⟩
        · exact ((List.dropWhile_suffix _).trans (List.drop_suffix 7 body)).isInfix.trans
            (List.prefix_append body _).isInfix
        · refine List.forall_mem_append.mpr ⟨fun c hc => neutral_of_toLower ?_, fun c hc => ?_⟩
          · rw [isDoctype, beq_iff_eq] at hd
            exact hd ▸ List.mem_map_of_mem hc
          · have hb := List.all_eq_true.mp List.all_takeWhile c hc
            exact neutral_of_isBlank (isBlank_of_isXmlBlank hb)
        · rw [← ha]
          congr 1
          rw [← List.append_assoc, List.append_assoc (body.take 7), hbody]
    · cases h

theorem readFrom_of_readInstruction (h : readInstruction ('?' :: cs) = .ok (t, rest)) :
    t.ReadFrom cs := by
  rw [readInstruction] at h
  split at h
  · rename_i c content r hb
    obtain ⟨rfl, hcs⟩ := List.cons.inj (eq_of_breakOn?_eq_some hb)
    have hi : content <:+: cs := by
      rw [hcs, List.append_eq, List.append_eq, List.append_assoc]
      exact (List.prefix_append _ _).isInfix
    split at h
    · cases h
      trivial
    · cases h
      exact ⟨hi, not_infix_of_breakOn? (by simp) hb⟩
  · cases h
  · split at h <;> cases h

theorem readFrom_of_readStartTag (h : readStartTag cs = .ok (t, rest)) : t.ReadFrom cs := by
  rw [readStartTag] at h
  split at h
  · cases h
  · rename_i content r hs
    have hcontent : content <:+: cs := by
      rw [eq_of_spanTag_eq_ok hs]
      exact (List.prefix_append _ _).isInfix
    split at h
    · split at h
      · cases h
      · rename_i hr
        cases h
        exact ⟨_, (List.dropLast_prefix content).isInfix.trans hcontent, hr⟩
    · split at h
      · cases h
      · rename_i hr
        cases h
        exact ⟨_, hcontent, hr⟩

theorem readFrom_of_readMarkup (h : readMarkup cs = .ok (t, rest)) : t.ReadFrom cs := by
  have hcons {c : Char} {ds : List Char} (h : t.ReadFrom ds) : t.ReadFrom (c :: ds) :=
    h.of_infix (List.suffix_cons c ds).isInfix
  rw [readMarkup.eq_def] at h
  split at h
  · cases h
  · refine hcons ?_
    rw [readBang.eq_def] at h
    split at h
    · rw [readCdata] at h
      split at h
      · rename_i ds hd
        obtain ⟨content, rfl, hi, -⟩ := infix_of_readUntil (by simp) h
        rw [dropPrefix?_eq_some_iff.mp hd]
        exact hi.trans (List.suffix_append _ ds).isInfix
      · cases h
    · rw [readComment] at h
      split at h
      · rename_i ds hd
        obtain ⟨content, rfl, hi, hm⟩ := infix_of_readUntil (by simp) h
        rw [dropPrefix?_eq_some_iff.mp hd]
        exact ⟨hi.trans (List.suffix_append _ ds).isInfix, hm⟩
      · cases h
    · exact readFrom_of_readDoctype h
    · exact readFrom_of_readDoctype h
    · cases h
  · exact hcons (readFrom_of_readInstruction h)
  · refine hcons ?_
    rw [readEndTag] at h
    split at h <;> cases h
    trivial
  · exact readFrom_of_readStartTag h

theorem readFrom_of_readToken {c : Char} (h : readToken c cs = .ok (t, rest)) :
    t.ReadFrom (c :: cs) := by
  rw [readToken] at h
  split at h
  · have hm := readFrom_of_readMarkup h
    exact hm.of_infix (List.suffix_cons c cs).isInfix
  split at h
  · rename_i hamp
    rw [readReference] at h
    split at h <;> cases h
    exact hamp ▸ List.mem_cons_self
  · cases h
    exact (List.cons_prefix_cons.mpr ⟨rfl, List.takeWhile_prefix isText⟩).isInfix

/-- **Every token stands in the text**, with parts that are pieces of it. -/
theorem readFrom_of_mem_tokens (h : t ∈ (tokens cs).1) : t.ReadFrom cs := by
  obtain ⟨c, ds, rest, hs, hr⟩ := exists_of_mem_tokens h
  have hfrom := readFrom_of_readToken hr
  exact hfrom.of_infix hs.isInfix

/-! ### Blanks around doctypes -/

/-- What is closed by a bracket is shorter behind it. -/
theorem Closes.length_lt {α : Type} {mark : Char} {read result : List Char → α}
    (h : Closes mark read result cs rest) : rest.length < cs.length := by
  obtain ⟨body, rfl, -⟩ := h
  simp only [List.length_append, List.length_cons]
  omega

/-- Characters that neither close a doctype nor open a part of it are passed over. -/
theorem afterDoctype?_skip {front : List Char}
    (h : ∀ c ∈ front, c ≠ '>' ∧ c ≠ '[' ∧ Quote.ofChar? c = none) (cs : List Char) :
    afterDoctype? none (front ++ cs) = afterDoctype? none cs := by
  induction front with
  | nil => rfl
  | cons c front ih =>
    obtain ⟨⟨hc, hb, hq⟩, hfront⟩ := List.forall_mem_cons.mp h
    rw [List.cons_append, afterDoctype?]
    simp only [if_neg hc, if_neg hb, hq, ih hfront]

/-- The first bracket is the first one also without what stands before it. -/
theorem after?_dropBlanks {body blanks : List Char}
    (h : after? ['>'] (body ++ (blanks ++ '>' :: rest)) = some rest) :
    after? ['>'] (body ++ '>' :: rest) = some rest := by
  obtain ⟨⟨content, r⟩, hbreak, rfl⟩ := Option.map_eq_some_iff.mp h
  have he := eq_of_breakOn?_eq_some hbreak
  rw [← List.append_assoc, List.append_assoc content] at he
  obtain rfl : body ++ blanks = content := List.append_cancel_right he
  have hnot : ¬ ['>'] <:+: body := fun hi =>
    not_infix_of_breakOn? (by simp) hbreak (hi.trans (List.prefix_append body blanks).isInfix)
  have hfound : breakOn? ['>'] (body ++ '>' :: r) = some (body, r) :=
    breakOn?_of_not_infix (by decide : '>' ∉ []) hnot r
  exact Option.map_eq_some_iff.mpr ⟨_, hfound, rfl⟩

section Trailing

variable {blanks : List Char} (hb : ∀ c ∈ blanks, isBlank c = true)
include hb

theorem not_mem_of_isBlank {c : Char} (hc : isBlank c = false) : c ∉ blanks := fun hm => by
  simp [hb c hm] at hc

/-- Behind blanks a bracket closes nothing that is open in a quoted part. -/
theorem afterDoctype?_quoted_ne (quote : Quote) :
    afterDoctype? (some quote) (blanks ++ '>' :: rest) ≠ some rest := by
  have hne : '>' ≠ quote.char := by cases quote <;> decide
  induction blanks with
  | nil =>
    rw [List.nil_append, afterDoctype?]
    simp only [if_neg hne]
    exact fun h => absurd (closes_of_afterDoctype? h).length_lt (Nat.lt_irrefl _)
  | cons c blanks ih =>
    have hc : c ≠ quote.char := by
      rintro rfl
      have := hb _ List.mem_cons_self
      cases quote <;> exact absurd this (by decide)
    rw [List.cons_append, afterDoctype?]
    simp only [if_neg hc]
    exact ih fun d hd => hb d (List.mem_cons_of_mem c hd)

/-- Nor does it in an internal subset. -/
theorem afterSubset?_ne : afterSubset? (blanks ++ '>' :: rest) ≠ some rest := by
  induction blanks with
  | nil =>
    rw [List.nil_append, afterSubset?, if_neg (by decide), if_neg (by decide)]
    exact fun h => absurd (closes_of_afterSubset? h).length_lt (Nat.lt_irrefl _)
  | cons c blanks ih =>
    have hne {d : Char} (hd : isBlank d = false) : c ≠ d :=
      ne_of_class (hb c List.mem_cons_self) hd
    rw [List.cons_append, afterSubset?, if_neg (hne (by decide)), if_neg (hne (by decide))]
    exact ih fun d hd => hb d (List.mem_cons_of_mem c hd)

/-- A declaration of an internal subset ends before the blanks behind the subset, since its bracket
is none of them. -/
theorem exists_afterDeclaration?_dropBlanks {body ds : List Char}
    (hd : afterDeclaration? (body ++ (blanks ++ '>' :: rest)) = some ds)
    (h : afterSubset? ds = some rest) :
    ∃ body', body'.length < body.length ∧ ds = body' ++ (blanks ++ '>' :: rest) ∧
      afterDeclaration? (body ++ '>' :: rest) = some (body' ++ '>' :: rest) := by
  obtain ⟨piece, hp, hpiece⟩ := closes_of_afterDeclaration? hd
  obtain ⟨more, rfl, -⟩ := closes_of_afterSubset? h
  have he : body ++ blanks = piece ++ '>' :: more := by
    rw [← List.append_assoc, ← List.cons_append, ← List.append_assoc] at hp
    exact List.append_cancel_right hp
  rcases List.append_eq_append_iff.mp he with ⟨bs, -, hbs⟩ | ⟨as, rfl, has⟩
  · exact absurd (hbs ▸ List.mem_append_right bs List.mem_cons_self)
      (not_mem_of_isBlank hb (by decide))
  cases as with
  | nil => exact absurd (has ▸ List.mem_cons_self) (not_mem_of_isBlank hb (by decide))
  | cons d as =>
    obtain ⟨rfl, rfl⟩ := List.cons_eq_cons.mp (has.trans List.cons_append)
    refine ⟨as, by simp; omega, List.append_assoc as blanks _, ?_⟩
    rw [List.append_assoc]
    exact hpiece _

/-- The blanks behind an internal subset may be left out. -/
theorem afterSubset?_dropBlanks {body : List Char}
    (h : afterSubset? (body ++ (blanks ++ '>' :: rest)) = some rest) :
    afterSubset? (body ++ '>' :: rest) = some rest := by
  induction hn : body.length using Nat.strong_induction_on generalizing body with
  | _ n ih =>
  subst hn
  cases body with
  | nil => exact absurd h (afterSubset?_ne hb)
  | cons c body =>
    rw [List.cons_append, afterSubset?] at h ⊢
    split at h
    · exact (if_pos ‹_›).trans (after?_dropBlanks h)
    rename_i hc
    rw [if_neg hc]
    split at h
    · rename_i hlt
      rw [if_pos hlt]
      split at h
      · rename_i ds hd
        obtain ⟨body', hlength, rfl, hd'⟩ := exists_afterDeclaration?_dropBlanks hb hd h
        rw [hd']
        exact ih _ (Nat.lt_succ_of_lt hlength) h rfl
      · cases h
    · rename_i hlt
      rw [if_neg hlt]
      exact ih _ (by simp) h rfl

/-- The blanks behind a doctype may be left out. -/
theorem afterDoctype?_dropBlanks {open? : Option Quote} {body : List Char}
    (h : afterDoctype? open? (body ++ (blanks ++ '>' :: rest)) = some rest) :
    afterDoctype? open? (body ++ '>' :: rest) = some rest := by
  induction body generalizing open? with
  | nil =>
    cases open? with
    | none =>
      rw [List.nil_append, afterDoctype?]
      exact if_pos rfl
    | some quote => exact absurd h (afterDoctype?_quoted_ne hb quote)
  | cons c body ih =>
    rw [List.cons_append] at h ⊢
    cases open? with
    | none =>
      rw [afterDoctype?] at h ⊢
      split at h
      · have hl := congrArg List.length (Option.some.inj h)
        simp only [List.length_append, List.length_cons] at hl
        omega
      rename_i hc
      split at h
      · exact (if_neg hc).trans ((if_pos ‹_›).trans (afterSubset?_dropBlanks hb h))
      · exact (if_neg hc).trans ((if_neg ‹_›).trans (ih h))
    | some quote => exact ih h

end Trailing

/-- **A doctype ends where it did** if the blanks around what it declares are left out. -/
theorem afterDoctype?_trim (h : afterDoctype? none (content ++ '>' :: rest) = some rest)
    (ys : List Char) : afterDoctype? none (trim content ++ '>' :: ys) = some ys := by
  obtain ⟨front, back, he, hfront, hback⟩ := exists_eq_append_trim content
  have hcore : afterDoctype? none (trim content ++ '>' :: rest) = some rest := by
    refine afterDoctype?_dropBlanks hback ?_
    rw [he, List.append_assoc, afterDoctype?_skip fun c hc => neutral_of_isBlank (hfront c hc),
      List.append_assoc] at h
    exact h
  obtain ⟨body, hbody, hall⟩ := closes_of_afterDoctype? hcore
  obtain rfl := List.append_cancel_right hbody
  exact hall ys

/-! ### Labels -/

/-- What can be read of the text `cs` as a node, without its children: pieces of the text that are
read back from their markup, with the exceptions that are named here. -/
def Delivered (cs : List Char) : Node → Prop
  | .text s => ∀ c ∈ s.toList, c ∈ cs
  | .element name attrs _ => (∀ c ∈ name.toList, isXmlBlank c = false) ∧
      (∀ attr ∈ attrs, IsAttributeKey attr.1.toList ∧ attr.2.toList <:+: cs) ∧
        (attrs.map Prod.fst).Nodup
  | .comment s => s.toList <:+: cs ∧ Yields (Node.comment s).outerHtml.toList [.comment s]
  | .doctype s => s.toList <:+: cs ∧
      (s ≠ "" → Yields (Node.doctype s).outerHtml.toList [.doctype s])
  | .instruction target data => target.toList <:+: cs ∧ data.toList <:+: cs ∧
      (target ≠ "xml" →
        Yields (Node.instruction target data).outerHtml.toList [.instruction target data])
  | .fragment _ => False

/-- The attributes of a tag that is read have distinct names. -/
theorem nodup_keys_of_readContent {name : List Char} {attrs : List (List Char × List Char)}
    (h : readContent content = .ok (name, attrs)) :
    ((Builder.attributes attrs).map Prod.fst).Nodup := by
  obtain ⟨_, ha, he⟩ := Except.map_eq_ok_iff.mp h
  cases he
  have hmap : (Builder.attributes attrs).map Prod.fst =
      (attrs.map Prod.fst).map String.ofList := by simp [Builder.attributes]
  rw [hmap]
  exact nodup_map_ofList (keys_of_readAttributesFrom ha).2

theorem delivered_of_readContent {name : List Char} {attrs : List (List Char × List Char)}
    (hamp : '&' ∉ cs) (hi : content <:+: cs) (h : readContent content = .ok (name, attrs)) :
    Delivered cs (.element (localName name) (Builder.attributes attrs) []) := by
  have hnodup := nodup_keys_of_readContent h
  obtain ⟨_, ha, he⟩ := Except.map_eq_ok_iff.mp h
  cases he
  have hsuffix := List.dropWhile_suffix (l := content) (! isXmlBlank ·)
  have hkeys := (keys_of_readAttributesFrom ha).1
  have hvalues := infix_of_readAttributesFrom
    (fun hm => hamp (hi.subset (hsuffix.subset hm))) ha
  refine ⟨fun c hc => ?_, fun attr hm => ?_, hnodup⟩
  · rw [localName, String.toList_ofList] at hc
    simpa using List.all_eq_true.mp List.all_takeWhile c ((afterFirst_suffix ':' _).subset hc)
  · obtain ⟨raw, hraw, rfl⟩ := List.mem_map.mp hm
    simp only [String.toList_ofList]
    exact ⟨(hkeys raw hraw).1, (hvalues raw hraw).trans (hsuffix.isInfix.trans hi)⟩

/-- A text without a character stands on one side of it. -/
theorem infix_or_infix_of_not_mem {m xs ys : List Char} {c : Char} (hc : c ∉ m)
    (h : m <:+: xs ++ c :: ys) : m <:+: xs ∨ m <:+: ys := by
  obtain ⟨s, t, he⟩ := h
  rw [List.append_assoc] at he
  rcases List.append_eq_append_iff.mp he with ⟨as, rfl, ht⟩ | ⟨bs, rfl, ht⟩
  · rcases List.append_eq_append_iff.mp ht with ⟨bs, rfl, -⟩ | ⟨_ | ⟨d, bs⟩, hm, hd⟩
    · exact .inl ⟨s, bs, List.append_assoc ..⟩
    · exact .inl ⟨s, [], by rw [hm]; simp⟩
    · obtain ⟨rfl, -⟩ := List.cons.inj hd
      exact absurd (hm ▸ List.mem_append_right as List.mem_cons_self) hc
  · cases bs with
    | nil =>
      cases m with
      | nil => exact .inl (List.nil_infix)
      | cons d m =>
        obtain ⟨rfl, -⟩ := List.cons.inj ht
        exact absurd List.mem_cons_self hc
    | cons d bs =>
      obtain ⟨-, rfl⟩ := List.cons.inj ht
      exact .inr ⟨bs, t, List.append_assoc ..⟩

/-- The content of an instruction that holds no closing mark makes a node that is read back. -/
theorem delivered_instruction (hi : content <:+: cs) (hm : ¬ ['?', '>'] <:+: '?' :: content) :
    Delivered cs (Builder.instruction content) := by
  have htarget := List.takeWhile_prefix (l := content) (! isBlank ·)
  have hdata : trim (content.dropWhile (! isBlank ·)) <:+: content :=
    (isInfix_trim _).trans (List.dropWhile_suffix _).isInfix
  rw [Builder.instruction]
  refine ⟨?_, ?_, fun hx => yields_instruction hx ?_ ?_ ?_⟩ <;>
    simp only [instructionContent, String.toList_ofList]
  · exact htarget.isInfix.trans hi
  · exact hdata.trans hi
  · intro c hc
    simpa using List.all_eq_true.mp List.all_takeWhile c hc
  · exact trim_trim _
  · have hfront : ¬ ['?', '>'] <:+: '?' :: content.takeWhile (! isBlank ·) := fun h =>
      hm (h.trans (List.cons_prefix_cons.mpr ⟨rfl, htarget⟩).isInfix)
    split
    · rwa [List.append_nil]
    · -- The blank between the target and the data is no part of the mark.
      intro h
      rcases infix_or_infix_of_not_mem (by decide) (List.cons_append ▸ h) with h | h
      · exact hfront h
      · exact hm ((h.trans hdata).trans (List.suffix_cons '?' content).isInfix)

/-- The tokens of a text without ampersands make such labels. -/
theorem makes_delivered (hamp : '&' ∉ cs) (h : t.ReadFrom cs) :
    t.Makes (Delivered cs) (· ∈ cs) := by
  cases t with
  | startTag name attrs | emptyTag name attrs =>
    obtain ⟨content, hi, hr⟩ := h
    exact delivered_of_readContent hamp hi hr
  | endTag | declaration => trivial
  | text | cdata => exact fun c hc => h.subset hc
  | reference => exact absurd h hamp
  | comment content =>
    obtain ⟨hi, hm⟩ := h
    exact ⟨by rwa [String.toList_ofList], yields_comment (by rwa [String.toList_ofList])⟩
  | doctype content =>
    obtain ⟨keyword, rest, hi, -, hk, ha⟩ := h
    rw [afterDoctype?_skip hk] at ha
    refine ⟨?_, fun hne => yields_doctype hne ?_ ?_⟩ <;> rw [String.toList_ofList]
    · exact (isInfix_trim content).trans hi
    · exact trim_trim content
    · exact afterDoctype?_trim ha
  | instruction content => exact delivered_instruction h.1 h.2

/-- **What is read of a text without ampersands** is made of its pieces. -/
theorem delivered_of_parseChars {mode : Mode} {nodes : List Node} (hamp : '&' ∉ cs)
    (h : parseChars mode cs = .ok nodes) : ∀ l ∈ Node.labelsAll nodes, Delivered cs l := by
  have hs := dropByteOrderMark_suffix cs
  refine labels_parseChars (q := (· ∈ cs)) (fun s hs c hc => ?_) (fun t ht => ?_) h
  · exact hs c (by rwa [String.toList_ofList] at hc)
  · have hfrom := readFrom_of_mem_tokens ht
    exact makes_delivered hamp (hfrom.of_infix hs.isInfix)

end MarkupTemplate.Markup
