import MarkupTemplate.Proofs.Markup.Locality
import MarkupTemplate.Proofs.Suspension.AttemptLaws
import MarkupTemplate.Proofs.Template.Occurrences

/-!
# Markers in tokens

A text is cut into tokens from left to right. Each token takes a stretch of the text and leaves
the rest, so the markers in its own texts, which are its content or its attribute values, are
among those of the stretch, and over all tokens they are among those of the text, in their order.

Reading resolves references, and one that names a bracket or a digit would bring in what the text
does not have. In a text with escaped ampersands all references are to ampersands.

## Main definitions

* `MarkupTemplate.Escaped` — texts whose ampersands are escaped.
* `MarkupTemplate.Markup.Token.slots` — the markers in the texts of a token.
* `MarkupTemplate.Markup.Token.Keeps` — a token with what it leaves of a text.
* `MarkupTemplate.Markup.Token.slotsFrom` — the markers in runs of text and in attribute values.
* `MarkupTemplate.Markup.Token.Seamless` — no marker is put together from pieces of a text.

## Main results

* `MarkupTemplate.Markup.keeps_of_readToken` — reading a token keeps the order of markers.
* `MarkupTemplate.Markup.slots_tokens_sublist` — so does reading all tokens.
-/

namespace MarkupTemplate

open Text

/-! ### Escaped texts -/

/-- A text whose ampersands are escaped. -/
def Escaped (cs : List Char) : Prop := ∃ raw, escapeAmpersands raw = cs

namespace Escaped

variable {c : Char} {cs ds : List Char}

theorem tail (h : Escaped (c :: cs)) : Escaped cs := by
  obtain ⟨_ | ⟨d, raw⟩, h⟩ := h
  · cases h
  · by_cases hd : d = '&'
    · subst hd
      rw [escapeAmpersands_ampersand] at h
      exact ⟨'a' :: 'm' :: 'p' :: ';' :: raw, (List.cons.inj h).2⟩
    · rw [escapeAmpersands_cons_of_ne hd] at h
      exact ⟨raw, (List.cons.inj h).2⟩

theorem of_suffix (h : Escaped cs) (hs : ds <:+ cs) : Escaped ds := by
  obtain ⟨before, rfl⟩ := hs
  induction before with
  | nil => exact h
  | cons c before ih => exact ih h.tail

/-- A text that is cut outside a reference is escaped in front of the cut. -/
theorem of_append (h : Escaped (cs ++ c :: ds)) (hc : c ∉ ['&', 'a', 'm', 'p', ';']) :
    Escaped cs := by
  obtain ⟨raw, h⟩ := h
  induction raw generalizing cs with
  | nil => simp at h
  | cons d raw ih =>
    by_cases hd : d = '&'
    · subst hd
      have h : ['&', 'a', 'm', 'p', ';'] ++ escapeAmpersands raw = cs ++ c :: ds := h
      rcases List.append_eq_append_iff.mp h with ⟨x, rfl, hx⟩ | ⟨_ | ⟨d, x⟩, hx, hcs⟩
      · obtain ⟨raw', rfl⟩ := ih hx
        exact ⟨'&' :: raw', rfl⟩
      · exact ⟨['&'], hx.trans (List.append_nil cs)⟩
      · obtain ⟨rfl, -⟩ := List.cons.inj hcs
        exact absurd (hx ▸ List.mem_append_right cs List.mem_cons_self) hc
    · rw [escapeAmpersands_cons_of_ne hd] at h
      cases cs with
      | nil => exact ⟨[], rfl⟩
      | cons e cs =>
        obtain ⟨rfl, ht⟩ := List.cons.inj h
        obtain ⟨raw', rfl⟩ := ih ht
        exact ⟨d :: raw', escapeAmpersands_cons_of_ne hd raw'⟩

/-- What stands behind an ampersand is the rest of its reference. -/
private theorem exists_eq (h : Escaped ('&' :: cs)) :
    ∃ rest, cs = 'a' :: 'm' :: 'p' :: ';' :: rest := by
  obtain ⟨raw, h⟩ := h
  cases raw with
  | nil => cases h
  | cons d raw =>
    by_cases hd : d = '&'
    · subst hd
      rw [escapeAmpersands_ampersand] at h
      exact ⟨escapeAmpersands raw, (List.cons.inj h).2.symm⟩
    · rw [escapeAmpersands_cons_of_ne hd] at h
      exact absurd (List.cons.inj h).1 hd

/-- Escaped text is unescaped to text with the same markers. -/
theorem markers_of_unescape (h : Escaped cs) (hu : Markup.unescape cs = .ok ds) :
    markers ds = markers cs := by
  obtain ⟨raw, rfl⟩ := h
  cases (unescape_escapeAmpersands raw).symm.trans hu
  exact (markers_escapeAmpersands _).symm

/-- The only references are to ampersands. -/
theorem exists_readReference (h : Escaped ('&' :: cs)) :
    ∃ rest, Markup.readReference cs = .ok (.reference ['a', 'm', 'p'], rest) ∧
      '&' :: cs = ['&', 'a', 'm', 'p', ';'] ++ rest := by
  obtain ⟨rest, rfl⟩ := h.exists_eq
  exact ⟨rest, rfl, rfl⟩

end Escaped

namespace Markup

/-! ### Texts of tokens -/

namespace Token

/-- The text that a token adds to the text before it, unless it ends that text. -/
def text? : Token → Option (List Char)
  | text content => some content
  | cdata content => some content
  | reference body => some (resolveInText body)
  | declaration _ => some []
  | _ => none

/-- The attributes of a tag. -/
def attributes : Token → List (List Char × List Char)
  | startTag _ attrs => attrs
  | emptyTag _ attrs => attrs
  | _ => []

/-- The markers in attribute values. -/
def attributeSlots (attrs : List (List Char × List Char)) : List Nat :=
  attrs.flatMap fun attr => markers attr.2

/-- The markers that stand whole in the text of a token or in its attribute values. -/
def slots (t : Token) : List Nat :=
  match t.text? with
  | some content => markers content
  | none => attributeSlots t.attributes

/-- A token of the text `cs` that leaves `rest`, without a change in the order of markers. -/
structure Keeps (cs : List Char) (t : Token) (rest : List Char) : Prop where
  suffix : rest <:+ cs
  slots : (t.slots ++ markers rest).Sublist (markers cs)

variable {cs ds rest content : List Char} {t : Token}

theorem Keeps.of_suffix (h : Keeps ds t rest) (hs : ds <:+ cs) : Keeps cs t rest :=
  ⟨h.suffix.trans hs, h.slots.trans (markers_sublist_of_suffix hs)⟩

/-- A token without markers only has to leave an end of the text. -/
theorem keeps_of_slots_eq_nil (h : t.slots = []) (hs : rest <:+ cs) : Keeps cs t rest :=
  ⟨hs, by rw [h]; exact markers_sublist_of_suffix hs⟩

/-- A token with markers has them from a stretch of the text in front of what it leaves. -/
theorem keeps_of_append (h : t.slots.Sublist (markers content)) (mark rest : List Char) :
    Keeps (content ++ mark ++ rest) t rest := by
  refine ⟨List.suffix_append _ rest, ?_⟩
  rw [List.append_assoc]
  exact (h.append (markers_sublist_of_suffix (List.suffix_append mark rest))).trans
    (markers_append_sublist content (mark ++ rest))

end Token

open Token

variable {cs rest : List Char} {t : Token}

/-! ### Constructs with a closing mark -/

theorem suffix_of_dropPrefix? {start ds : List Char} (h : dropPrefix? start cs = some ds) :
    ds <:+ cs := by
  rw [dropPrefix?_eq_some_iff.mp h]
  exact List.suffix_append start ds

theorem suffix_of_breakOn? {mark content : List Char}
    (h : breakOn? mark cs = some (content, rest)) : rest <:+ cs := by
  rw [eq_of_breakOn?_eq_some h]
  exact List.suffix_append _ rest

private theorem exists_of_readUntil {construct : Construct} {token : List Char → Token}
    {mark : List Char} (h : readUntil construct token mark cs = .ok (t, rest)) :
    ∃ content, t = token content ∧ cs = content ++ mark ++ rest := by
  rw [readUntil] at h
  split at h
  · rename_i content r hb
    cases h
    exact ⟨content, rfl, eq_of_breakOn?_eq_some hb⟩
  · cases h

private theorem keeps_of_readComment (h : readComment cs = .ok (t, rest)) : Keeps cs t rest := by
  rw [readComment] at h
  split at h
  · rename_i ds hd
    obtain ⟨content, rfl, rfl⟩ := exists_of_readUntil h
    exact (keeps_of_slots_eq_nil rfl (List.suffix_append _ rest)).of_suffix
      (suffix_of_dropPrefix? hd)
  · cases h

private theorem keeps_of_readCdata (h : readCdata cs = .ok (t, rest)) : Keeps cs t rest := by
  rw [readCdata] at h
  split at h
  · rename_i ds hd
    obtain ⟨content, rfl, rfl⟩ := exists_of_readUntil h
    exact (keeps_of_append (List.Sublist.refl _) [']', ']', '>'] rest).of_suffix
      (suffix_of_dropPrefix? hd)
  · cases h

private theorem keeps_of_readInstruction (h : readInstruction cs = .ok (t, rest)) :
    Keeps cs t rest := by
  rw [readInstruction] at h
  split at h
  · rename_i c content r hb
    have hs := suffix_of_breakOn? hb
    split at h <;> cases h <;> exact keeps_of_slots_eq_nil rfl hs
  · cases h
  · split at h <;> cases h

/-! ### Doctypes -/

private theorem keeps_of_readDoctype (h : readDoctype cs = .ok (t, rest)) : Keeps cs t rest := by
  rw [readDoctype] at h
  split at h
  · cases h
  · rename_i r hr
    have hs := (closes_of_afterDoctype? hr).suffix
    dsimp only at h
    split at h
    · split at h <;> cases h
      exact keeps_of_slots_eq_nil rfl hs
    · cases h

/-! ### Tags -/

theorem Quote.char_not_mem (quote : Quote) : quote.char ∉ ['&', 'a', 'm', 'p', ';'] := by
  cases quote <;> decide

/-- Attribute values have markers of the tag, in their order. -/
theorem attributeSlots_readAttributesFrom {size : Nat} {seen : KeyedList (List Char) Nat}
    {attrs : List (List Char × List Char)} (he : Escaped cs)
    (h : readAttributesFrom size seen cs = .ok attrs) :
    (attributeSlots attrs).Sublist (markers cs) := by
  fun_induction readAttributesFrom size seen cs generalizing attrs with
  | case1 =>
    cases h
    exact List.nil_sublist _
  | case2 => cases h
  | case3 => cases h
  | case4 _ cs c ds hc attr rest hs value hu =>
    rename_i ih
    obtain ⟨tail, ht, h⟩ := Except.bind_eq_ok_iff.mp h
    cases h
    obtain ⟨quote, hq⟩ := suffix_of_splitAttribute hs
    have hds : c :: ds <:+ cs := hc ▸ List.dropWhile_suffix isXmlBlank
    have hsuffix : attr.value ++ quote.char :: rest <:+ cs :=
      hq.trans ((List.suffix_cons c ds).trans hds)
    have hev := he.of_suffix hsuffix
    have hrest : rest <:+ quote.char :: rest := List.suffix_cons _ rest
    have hvalue : markers value = markers attr.value :=
      (hev.of_append quote.char_not_mem).markers_of_unescape hu
    have htail : (attributeSlots tail).Sublist (markers (quote.char :: rest)) :=
      (ih (hev.of_suffix (hrest.trans (List.suffix_append _ _))) ht).trans
        (markers_sublist_of_suffix hrest)
    show (markers value ++ attributeSlots tail).Sublist (markers cs)
    rw [hvalue]
    exact ((List.Sublist.refl _).append htail).trans
      ((markers_append_sublist _ _).trans (markers_sublist_of_suffix hsuffix))

private theorem attributeSlots_readContent {content name : List Char}
    {attrs : List (List Char × List Char)} (he : Escaped content)
    (h : readContent content = .ok (name, attrs)) :
    (attributeSlots attrs).Sublist (markers content) := by
  obtain ⟨as, ha, h⟩ := Except.map_eq_ok_iff.mp h
  cases h
  have hs := List.dropWhile_suffix (l := content) (! isXmlBlank ·)
  exact (attributeSlots_readAttributesFrom (he.of_suffix hs) ha).trans
    (markers_sublist_of_suffix hs)

private theorem keeps_of_readStartTag (he : Escaped cs) (h : readStartTag cs = .ok (t, rest)) :
    Keeps cs t rest := by
  rw [readStartTag] at h
  split at h
  · cases h
  · rename_i content r hs
    have hcs := eq_of_spanTag_eq_ok hs
    have hec : Escaped content := by
      rw [hcs] at he
      exact he.of_append (by decide)
    have hkeeps {token : Token} (hk : token.slots.Sublist (markers content)) :
        Keeps cs token r := by
      rw [hcs, List.append_cons]
      exact keeps_of_append hk ['>'] r
    split at h
    · rename_i hslash
      split at h
      · cases h
      · rename_i name attrs ha
        cases h
        obtain ⟨content, rfl⟩ := List.getLast?_eq_some_iff.mp hslash
        rw [List.dropLast_concat] at ha
        have hslots := attributeSlots_readContent (hec.of_append (by decide)) ha
        refine hkeeps (hslots.trans ?_)
        exact (List.sublist_append_left _ _).trans (markers_append_sublist content ['/'])
    · split at h
      · cases h
      · rename_i name attrs ha
        cases h
        exact hkeeps (attributeSlots_readContent hec ha)

private theorem keeps_of_readEndTag (h : readEndTag cs = .ok (t, rest)) : Keeps cs t rest := by
  rw [readEndTag] at h
  split at h
  · cases h
  · rename_i content r hs
    cases h
    refine keeps_of_slots_eq_nil rfl ?_
    rw [eq_of_spanTag_eq_ok hs]
    exact (List.suffix_cons '>' rest).trans (List.suffix_append content _)

/-! ### Tokens -/

private theorem keeps_of_readMarkup (he : Escaped cs) (h : readMarkup cs = .ok (t, rest)) :
    Keeps cs t rest := by
  rw [readMarkup.eq_def] at h
  split at h
  · cases h
  · rename_i ds
    rw [readBang.eq_def] at h
    refine Keeps.of_suffix ?_ (List.suffix_cons '!' ds)
    split at h
    · exact keeps_of_readCdata h
    · exact keeps_of_readComment h
    · exact keeps_of_readDoctype h
    · exact keeps_of_readDoctype h
    · cases h
  · exact keeps_of_readInstruction h
  · rename_i ds
    exact (keeps_of_readEndTag h).of_suffix (List.suffix_cons '/' ds)
  · exact keeps_of_readStartTag he h

/-- Reading a token of an escaped text keeps the order of markers. -/
theorem keeps_of_readToken {c : Char} (he : Escaped (c :: cs))
    (h : readToken c cs = .ok (t, rest)) : Keeps (c :: cs) t rest := by
  rw [readToken] at h
  split at h
  · exact (keeps_of_readMarkup he.tail h).of_suffix (List.suffix_cons c cs)
  · split at h
    · rename_i hc
      subst hc
      obtain ⟨ds, hr, hcs⟩ := he.exists_readReference
      cases hr.symm.trans h
      rw [hcs]
      exact keeps_of_slots_eq_nil (by decide) (List.suffix_append _ _)
    · cases h
      have hcs : c :: cs = c :: cs.takeWhile isText ++ [] ++ cs.dropWhile isText := by
        rw [List.append_nil, List.cons_append, List.takeWhile_append_dropWhile]
      rw [hcs]
      exact keeps_of_append (List.Sublist.refl _) [] _

/-- The markers in the tokens of an escaped text are among its markers, in their order. -/
theorem slots_tokens_sublist (he : Escaped cs) :
    ((tokens cs).1.flatMap Token.slots).Sublist (markers cs) := by
  fun_induction tokens cs with
  | case1 => exact List.nil_sublist _
  | case2 => exact List.nil_sublist _
  | case3 c cs t rest h ts stop? hts ih =>
    have hk := keeps_of_readToken he h
    rw [hts] at ih
    rw [List.flatMap_cons]
    exact ((List.Sublist.refl t.slots).append (ih (he.of_suffix hk.suffix))).trans hk.slots

/-! ### Runs of text -/

namespace Token

/-- The markers that tokens bring in, behind a text that may go on. Pieces of one text are joined
before they are decoded. -/
def slotsFrom (pending : List Char) : List Token → List Nat
  | [] => markers pending
  | t :: ts =>
    match t.text? with
    | some content => slotsFrom (pending ++ content) ts
    | none => markers pending ++ (attributeSlots t.attributes ++ slotsFrom [] ts)

/-- No marker begins in one piece of a text and ends in another. -/
def Seamless (pending : List Char) : List Token → Prop
  | [] => True
  | t :: ts =>
    match t.text? with
    | some content => ¬ Straddled pending content ∧ Seamless (pending ++ content) ts
    | none => Seamless [] ts

/-- No marker is lost where pieces of text are joined. -/
theorem slots_sublist_slotsFrom (pending : List Char) (ts : List Token) :
    (markers pending ++ ts.flatMap slots).Sublist (slotsFrom pending ts) := by
  induction ts generalizing pending with
  | nil => rw [List.flatMap_nil, List.append_nil]; exact List.Sublist.refl _
  | cons t ts ih =>
    rw [List.flatMap_cons, slotsFrom, slots]
    split
    · rename_i content _
      rw [← List.append_assoc]
      exact ((markers_append_sublist pending content).append (List.Sublist.refl _)).trans
        (ih (pending ++ content))
    · exact (List.Sublist.refl _).append ((List.Sublist.refl _).append (ih []))

/-- Without seams there are no other markers than those of the tokens. -/
theorem slotsFrom_eq {pending : List Char} {ts : List Token} (h : Seamless pending ts) :
    slotsFrom pending ts = markers pending ++ ts.flatMap slots := by
  induction ts generalizing pending with
  | nil => rw [List.flatMap_nil, List.append_nil]; rfl
  | cons t ts ih =>
    rw [List.flatMap_cons, slotsFrom, slots]
    cases ht : t.text? with
    | some content =>
      simp only [Seamless, ht] at h
      simp only [ih h.2, markers_append h.1, List.append_assoc]
    | none =>
      simp only [Seamless, ht] at h
      simp only [ih h]
      rfl

/-- Whether a token cuts a text into pieces without ending it: a CDATA section or a declaration. -/
def isSeam : Token → Bool
  | cdata _ => true
  | declaration _ => true
  | _ => false

end Token

private theorem text?_of_readMarkup (h : readMarkup cs = .ok (t, rest)) (hj : t.isSeam = false) :
    t.text? = none := by
  simp only [readMarkup.eq_def, readBang.eq_def, readComment, readCdata, readDoctype, readUntil,
    readInstruction, readEndTag, readStartTag] at h
  repeat' split at h
  all_goals cases h
  all_goals first | rfl | cases hj

/-- Where neither a CDATA section nor a declaration stands, no marker is put together from pieces:
the only other ends of pieces are escaped ampersands. -/
theorem seamless_tokens (he : Escaped cs) (h : ∀ t ∈ (tokens cs).1, t.isSeam = false)
    {pending : List Char}
    (hp : pending = [] ∨ pending.getLast? = some '&' ∨ ∀ c ∈ cs.head?, isText c = false) :
    Seamless pending (tokens cs).1 := by
  fun_induction tokens cs generalizing pending with
  | case1 => trivial
  | case2 => trivial
  | case3 c cs t rest hr ts stop? hts ih =>
    have hrest := he.of_suffix (keeps_of_readToken he hr).suffix
    obtain ⟨hj, hts'⟩ := List.forall_mem_cons.mp h
    rw [hts] at ih
    rw [readToken] at hr
    split at hr
    · simp only [Seamless, text?_of_readMarkup hr hj]
      exact ih hrest hts' (Or.inl rfl)
    · rename_i hlt
      split at hr
      · rename_i hc
        subst hc
        obtain ⟨_, hread, -⟩ := he.exists_readReference
        cases hread.symm.trans hr
        refine ⟨not_straddled_cons rfl pending [],
          ih hrest hts' (Or.inr (Or.inl ?_))⟩
        exact List.getLast?_append
      · rename_i hamp
        cases hr
        refine ⟨?_, ih hrest hts' (Or.inr (Or.inr ?_))⟩
        · rcases hp with rfl | hp | hp
          · exact not_straddled_nil _
          · exact not_straddled_of_getLast? hp rfl _
          · have := hp c rfl
            simp [isText, hlt, hamp] at this
        · intro d hd
          have hnot := List.head?_dropWhile_not isText cs
          rw [Option.mem_def.mp hd] at hnot
          simpa using hnot

end Markup

end MarkupTemplate
