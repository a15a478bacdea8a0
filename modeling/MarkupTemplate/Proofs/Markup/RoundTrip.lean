import MarkupTemplate.Dom.Serialize
import MarkupTemplate.Proofs.Markup.Lenient
import MarkupTemplate.Proofs.Markup.Locality
import MarkupTemplate.Proofs.Text.Blanks

/-!
# Reading undoes writing

Nodes that are written plainly are read back by the lenient reader, node by node. Texts and
attribute values may hold any characters, since what means something to the reader is written as a
reference. What is written as it stands (names, comments, doctypes, instructions, and the text of
raw-text elements) must not mean anything more.

## Main definitions

* `MarkupTemplate.Dom.Node.Normal`, `MarkupTemplate.Dom.Node.NormalAll` — nodes that can be read
  back.
* `MarkupTemplate.Markup.rawAttributes` — attributes with their names and values as characters.

## Main results

* `MarkupTemplate.Markup.yields_write` — the markup of a normal node yields it.
* `MarkupTemplate.Markup.parse_outerHtml` — the markup of normal nodes is read as these nodes.
-/

namespace MarkupTemplate

open Dom Markup Text

/-! ### Normal nodes -/

namespace Dom

/-- An ASCII letter, and behind it letters, digits and hyphens. -/
def IsMarkupName (name : String) : Prop :=
  name.toList.head?.any Char.isAlpha = true ∧ ∀ c ∈ name.toList, isNameChar c = true

instance (name : String) : Decidable (IsMarkupName name) :=
  have : Decidable (∀ c ∈ name.toList, isNameChar c = true) := List.decidableBAll _ _
  inferInstanceAs (Decidable (_ ∧ _))

/-- Some ASCII letters and digits, or none. -/
def IsWord (s : String) : Prop := ∀ c ∈ s.toList, c.isAlphanum = true

instance (s : String) : Decidable (IsWord s) :=
  List.decidableBAll (Char.isAlphanum · = true) s.toList

/-- What may stand in a raw-text element: nothing, or a text that is no markup. -/
def IsRawContent : List Node → Prop
  | [] => True
  | [.text s] => '&' ∉ s.toList ∧ '<' ∉ s.toList
  | _ => False

instance : (children : List Node) → Decidable (IsRawContent children)
  | [] => isTrue trivial
  | [.text _] => inferInstanceAs (Decidable (_ ∧ _))
  | .text _ :: _ :: _ => isFalse id
  | .element .. :: _ | .comment _ :: _ | .doctype _ :: _ | .instruction .. :: _
  | .fragment _ :: _ => isFalse id

namespace Node

mutual

/-- A node that can be read back from its markup. -/
def Normal : Node → Prop
  | text s => s ≠ ""
  | element name attrs children =>
    IsMarkupName name ∧ (∀ attr ∈ attrs, IsMarkupName attr.1) ∧ (attrs.map Prod.fst).Nodup ∧
      (isVoid name = true → children = []) ∧ (isRawText name = true → IsRawContent children) ∧
      NormalAll children
  | comment s => '>' ∉ s.toList
  | doctype s => s ≠ "" ∧ IsWord s
  | instruction target data => target ≠ "xml" ∧ IsWord target ∧ IsWord data
  | fragment _ => False

/-- Nodes that can be read back, with no text next to another. -/
def NormalAll : List Node → Prop
  | [] => True
  | n :: ns => n.Normal ∧ (startsText [n] = true → startsText ns = false) ∧ NormalAll ns

end

mutual

/-- Decides whether a node can be read back. -/
private def decNormal : (n : Node) → Decidable n.Normal
  | text _ => inferInstanceAs (Decidable (_ ≠ _))
  | element _ _ cs =>
    have := decNormalAll cs
    inferInstanceAs (Decidable (_ ∧ _))
  | comment _ => inferInstanceAs (Decidable (_ ∉ _))
  | doctype _ => inferInstanceAs (Decidable (_ ∧ _))
  | instruction .. => inferInstanceAs (Decidable (_ ∧ _))
  | fragment _ => isFalse id

/-- Decides whether nodes can be read back. -/
private def decNormalAll : (ns : List Node) → Decidable (NormalAll ns)
  | [] => isTrue trivial
  | n :: ns =>
    have := decNormal n
    have := decNormalAll ns
    inferInstanceAs (Decidable (_ ∧ _))

end

instance : DecidablePred Normal := decNormal

instance : DecidablePred NormalAll := decNormalAll

theorem separated_of_normalAll {ns : List Node} (h : NormalAll ns) : Separated ns := by
  induction ns with
  | nil => trivial
  | cons n ns ih =>
    obtain ⟨hn, hstart, hns⟩ := h
    cases n with
    | text s => exact ⟨hn, hstart rfl, ih hns⟩
    | _ => exact ih hns

end Node

theorem IsMarkupName.isTagName {name : String} (h : IsMarkupName name) : IsTagName name.toList := by
  refine ⟨fun hn => ?_, h.2⟩
  have hhead := h.1
  rw [hn] at hhead
  cases hhead

end Dom

namespace Markup

/-! ### Escaped texts and values -/

/-- A character is escaped as a reference to its name, or it stands for itself. -/
theorem escapeChar_cases (quotes : Bool) (c : Char) :
    (∃ body, escapeChar quotes c = '&' :: (body ++ [';']) ∧ named? body = some c ∧
      ∀ d ∈ body, d.isLower = true) ∨
    (escapeChar quotes c = [c] ∧ isText c = true ∧ (quotes = true → c ≠ '"')) := by
  by_cases hamp : c = '&'
  · subst hamp
    exact Or.inl ⟨"amp".toList, rfl, rfl, List.all_eq_true.mp (by decide)⟩
  by_cases hlt : c = '<'
  · subst hlt
    exact Or.inl ⟨"lt".toList, rfl, rfl, List.all_eq_true.mp (by decide)⟩
  by_cases hgt : c = '>'
  · subst hgt
    exact Or.inl ⟨"gt".toList, rfl, rfl, List.all_eq_true.mp (by decide)⟩
  by_cases hquote : c = '"' ∧ quotes = true
  · obtain ⟨rfl, rfl⟩ := hquote
    exact Or.inl ⟨"quot".toList, rfl, rfl, List.all_eq_true.mp (by decide)⟩
  · refine Or.inr ⟨?_, by simp [isText, hamp, hlt], fun hq hc => hquote ⟨hc, hq⟩⟩
    rw [escapeChar, if_neg hamp, if_neg hlt, if_neg hgt, if_neg hquote]

theorem resolveInText_of_named? {body : List Char} {c : Char} (h : named? body = some c) :
    resolveInText body = [c] := by
  unfold resolveInText
  simp only [h]

theorem resolveInValue_of_named? {body : List Char} {c : Char} (h : named? body = some c)
    (hb : ∀ d ∈ body, d.isLower = true) (size : Nat) (rest : List Char) :
    resolveInValue size body rest = .ok c := by
  unfold resolveInValue
  split
  · exact absurd (hb '#' List.mem_cons_self) (by decide)
  · rw [h]

/-- An escaped text stands for the text. -/
theorem words_escapeText (cs : List Char) : Words (cs.flatMap (escapeChar false)) cs := by
  induction cs with
  | nil => exact .nil
  | cons c cs ih =>
    rw [List.flatMap_cons]
    rcases escapeChar_cases false c with ⟨body, he, hn, hb⟩ | ⟨he, hc, _⟩
    · have hr : ∀ d ∈ body, isTextReference d = true := fun d hd => by
        simp [isTextReference, ne_of_class (hb d hd)]
      rw [he, List.cons_append, List.append_assoc, ← List.singleton_append (l := cs),
        ← resolveInText_of_named? hn]
      exact .reference hr ih
    · rw [he]
      exact .char hc ih

/-- A reference at the start of a value is resolved, and then the rest is. -/
theorem unescapeFrom_reference {size : Nat} {body : List Char} {c : Char}
    (hb : ∀ d ∈ body, isValueReference d = true)
    (hc : ∀ tail, resolveInValue size body tail = .ok c) (rest : List Char) :
    unescapeFrom size ('&' :: (body ++ ';' :: rest)) =
      (unescapeFrom size rest).map (c :: ·) := by
  have htake : (body ++ ';' :: rest).takeWhile isValueReference = body := by
    rw [List.takeWhile_append_of_pos hb]
    exact List.append_nil body
  have hdrop : (body ++ ';' :: rest).dropWhile isValueReference = ';' :: rest :=
    List.dropWhile_append_of_pos hb
  have hs : splitReference? isValueReference (body ++ ';' :: rest) = some (body, rest) := by
    rw [splitReference?, hdrop, htake]
    rfl
  rw [unescapeFrom, if_pos rfl]
  split
  · rename_i body' rest' hr
    cases hs.symm.trans hr
    rw [hc]
    rfl
  · rename_i hr
    cases hs.symm.trans hr

theorem unescapeFrom_char {size : Nat} {c : Char} (h : c ≠ '&') (rest : List Char) :
    unescapeFrom size (c :: rest) = (unescapeFrom size rest).map (c :: ·) := by
  rw [unescapeFrom, if_neg h]
  rfl

/-- A value without ampersands is unescaped to itself. -/
theorem unescape_self {cs : List Char} (h : '&' ∉ cs) : unescape cs = .ok cs := by
  have hfrom (size : Nat) : unescapeFrom size cs = .ok cs := by
    induction cs with
    | nil => rw [unescapeFrom]
    | cons c cs ih =>
      rw [List.mem_cons, not_or] at h
      rw [unescapeFrom_char (Ne.symm h.1), ih h.2]
      rfl
  exact hfrom _

/-- An escaped value is unescaped to the value. -/
theorem unescape_escapeAttribute (cs : List Char) :
    unescape (cs.flatMap (escapeChar true)) = .ok cs := by
  have hfrom (size : Nat) : unescapeFrom size (cs.flatMap (escapeChar true)) = .ok cs := by
    induction cs with
    | nil => rw [List.flatMap_nil, unescapeFrom]
    | cons c cs ih =>
      rw [List.flatMap_cons]
      rcases escapeChar_cases true c with ⟨body, he, hn, hb⟩ | ⟨he, hc, _⟩
      · have hr : ∀ d ∈ body, isValueReference d = true := fun d hd => by
          simp [isValueReference, ne_of_class (hb d hd)]
        rw [he, List.cons_append, List.append_assoc, List.singleton_append,
          unescapeFrom_reference hr (resolveInValue_of_named? hn hb size), ih]
        rfl
      · have hne : c ≠ '&' := by
          rintro rfl
          exact absurd hc (by decide)
        rw [he, List.singleton_append, unescapeFrom_char hne, ih]
        rfl
  exact hfrom _

theorem quote_not_mem_escapeAttribute (cs : List Char) : '"' ∉ cs.flatMap (escapeChar true) := by
  intro hm
  obtain ⟨c, _, hc⟩ := List.mem_flatMap.mp hm
  rcases escapeChar_cases true c with ⟨body, he, _, hb⟩ | ⟨he, _, hne⟩
  · rw [he, List.mem_cons, List.mem_append, List.mem_singleton] at hc
    rcases hc with hc | hc | hc
    · exact absurd hc (by decide)
    · exact absurd (hb _ hc) (by decide)
    · exact absurd hc (by decide)
  · rw [he] at hc
    exact hne rfl (List.mem_singleton.mp hc).symm

/-! ### Tags -/

/-- Attributes with their names and values as characters. -/
def rawAttributes (attrs : List (String × String)) : List (List Char × List Char) :=
  attrs.map fun attr => (attr.1.toList, attr.2.toList)

theorem nodup_map_ofList {names : List (List Char)} (h : names.Nodup) :
    (names.map String.ofList).Nodup :=
  List.pairwise_map.mpr (h.imp fun hne he => hne (String.ofList_injective he))

@[simp] theorem attributes_rawAttributes (attrs : List (String × String)) :
    Builder.attributes (rawAttributes attrs) = attrs := by
  rw [Builder.attributes, rawAttributes, List.map_map]
  refine (List.map_congr_left fun attr _ => ?_).trans (List.map_id attrs)
  simp

/-- Attributes as they are written, with their values changed. -/
theorem toList_join_attributes {f : String → String} {esc : List Char → List Char}
    (hf : ∀ s, (f s).toList = esc s.toList) (attrs : List (String × String)) :
    (String.join (attrs.map fun attr => " " ++ attr.1 ++ "=\"" ++ f attr.2 ++ "\"")).toList =
      attributeMarkup esc (rawAttributes attrs) := by
  induction attrs with
  | nil => rfl
  | cons attr attrs ih =>
    rw [List.map_cons, String.join_cons, String.toList_append, ih]
    simp [rawAttributes, attributeMarkup, hf]

theorem toList_startTag (name : String) (attrs : List (String × String)) :
    (startTag name attrs).toList =
      '<' :: (tagMarkup (List.flatMap (escapeChar true)) name.toList (rawAttributes attrs) ++
        ['>']) := by
  have ha := toList_join_attributes (f := escapeAttribute) (fun _ => String.toList_ofList) attrs
  have hj : attrs.map writeAttribute =
      attrs.map fun attr => " " ++ attr.1 ++ "=\"" ++ escapeAttribute attr.2 ++ "\"" := rfl
  rw [startTag, hj]
  simp [ha, tagMarkup]

theorem nodup_rawAttributes {attrs : List (String × String)} (h : (attrs.map Prod.fst).Nodup) :
    ((rawAttributes attrs).map Prod.fst).Nodup := by
  have he : (rawAttributes attrs).map Prod.fst = (attrs.map Prod.fst).map String.toList := by
    simp [rawAttributes]
  rw [he]
  exact List.pairwise_map.mpr (h.imp fun hne he => hne (String.toList_inj.mp he))

theorem isTagName_rawAttributes {attrs : List (String × String)}
    (hn : ∀ attr ∈ attrs, IsTagName attr.1.toList) :
    ∀ raw ∈ rawAttributes attrs, IsTagName raw.1 := by
  rintro raw hr
  obtain ⟨attr, ha, rfl⟩ := List.mem_map.mp hr
  exact hn attr ha

/-- Attributes with distinct names are read back from the values that `esc` writes, if these can be
quoted and unescaped. -/
theorem readable_rawAttributes {esc : List Char → List Char} {attrs : List (String × String)}
    (hn : ∀ attr ∈ attrs, IsTagName attr.1.toList) (hd : (attrs.map Prod.fst).Nodup)
    (hq : ∀ attr ∈ attrs, '"' ∉ esc attr.2.toList)
    (hu : ∀ attr ∈ attrs, unescape (esc attr.2.toList) = .ok attr.2.toList) :
    Readable esc (rawAttributes attrs) where
  names attr ha := by
    obtain ⟨a, hm, rfl⟩ := List.mem_map.mp ha
    exact (hn a hm).isAttributeKey
  nodup := nodup_rawAttributes hd
  quoted attr ha := by
    obtain ⟨a, hm, rfl⟩ := List.mem_map.mp ha
    exact hq a hm
  unescape attr ha := by
    obtain ⟨a, hm, rfl⟩ := List.mem_map.mp ha
    exact hu a hm

/-! ### Doctypes and instructions -/

theorem isBlank_of_isAlphanum {c : Char} (h : c.isAlphanum = true) : isBlank c = false := by
  change (decide (c.val ≥ 'A'.val ∧ c.val ≤ 'Z'.val) || (c.val ≥ 'a'.val && c.val ≤ 'z'.val) ||
    (c.val ≥ '0'.val && c.val ≤ '9'.val)) = true at h
  simp only [Bool.or_eq_true, Bool.and_eq_true, decide_eq_true_eq, UInt32.le_iff_toNat_le,
    ge_iff_le] at h
  have hc : c.toNat = c.val.toNat := rfl
  have h0 : '0'.val.toNat = 48 := rfl
  have h9 : '9'.val.toNat = 57 := rfl
  have hA : 'A'.val.toNat = 65 := rfl
  have hZ : 'Z'.val.toNat = 90 := rfl
  have ha : 'a'.val.toNat = 97 := rfl
  have hz : 'z'.val.toNat = 122 := rfl
  simp only [isBlank, Bool.or_eq_false_iff, Bool.and_eq_false_iff, decide_eq_false_iff_not,
    beq_eq_false_iff_ne, ne_eq]
  omega

theorem solid_of_isWord {s : String} (h : IsWord s) : Solid s.toList := fun c hc =>
  isBlank_of_isAlphanum (h c hc)

theorem not_mem_of_isWord {s : String} (h : IsWord s) {c : Char} (hc : c.isAlphanum = false) :
    c ∉ s.toList := fun hm => ne_of_class (h c hm) hc rfl

/-- A doctype without quotes and subset ends at the first closing bracket. -/
theorem afterDoctype?_append {cs : List Char}
    (h : ∀ c ∈ cs, c ≠ '>' ∧ c ≠ '[' ∧ Quote.ofChar? c = none) (rest : List Char) :
    afterDoctype? none (cs ++ '>' :: rest) = some rest := by
  induction cs with
  | nil => simp [afterDoctype?]
  | cons c cs ih =>
    obtain ⟨⟨hc, hb, hq⟩, hcs⟩ := List.forall_mem_cons.mp h
    rw [List.cons_append, afterDoctype?]
    simp only [if_neg hc, if_neg hb, hq, ih hcs]

theorem readToken_doctype {s : String} (hne : s ≠ "") (hs : StartsSolid s.toList)
    (h : ∀ rest, afterDoctype? none (s.toList ++ '>' :: rest) = some rest) (rest : List Char) :
    readToken '<' ('!' :: ("DOCTYPE ".toList ++ s.toList ++ '>' :: rest)) =
      .ok (.doctype s.toList, rest) := by
  obtain ⟨c, cs, hc⟩ := List.exists_cons_of_ne_nil fun he => hne (String.toList_eq_nil_iff.mp he)
  have hafter : afterDoctype? none ("DOCTYPE ".toList ++ s.toList ++ '>' :: rest) =
      some rest := by
    rw [List.append_assoc]
    exact h rest
  have hkeyword : isDoctype ("DOCTYPE ".toList ++ s.toList) = true := rfl
  have hname : ("DOCTYPE ".toList ++ s.toList).drop 7 = ' ' :: s.toList := rfl
  have hdrop : (' ' :: s.toList).dropWhile isXmlBlank = s.toList := by
    rw [List.dropWhile_cons_of_pos (by decide), hc, List.dropWhile_cons_of_neg]
    exact fun hb => absurd (isBlank_of_isXmlBlank hb) (by simp [hs c (by rw [hc]; rfl)])
  show readDoctype ("DOCTYPE ".toList ++ s.toList ++ '>' :: rest) = _
  rw [readDoctype_eq hafter, if_pos hkeyword, hname, hdrop]
  split
  · rename_i hn
    cases hc.symm.trans hn
  · rfl

/-- A doctype is read back if it is trimmed and ends where it is said to. -/
theorem yields_doctype {s : String} (hne : s ≠ "") (hs : trim s.toList = s.toList)
    (h : ∀ rest, afterDoctype? none (s.toList ++ '>' :: rest) = some rest) :
    Yields ("<!DOCTYPE " ++ s ++ ">").toList [.doctype s] := by
  refine Yields.of_push (fun b => rfl) fun whole b rest => ?_
  have he : ("<!DOCTYPE " ++ s ++ ">").toList ++ rest =
      '<' :: '!' :: ("DOCTYPE ".toList ++ s.toList ++ '>' :: rest) := by simp
  have hstart : StartsSolid s.toList := hs ▸ startsSolid_trim s.toList
  rw [he, resume_of_readToken (readToken_doctype hne hstart h rest), Builder.step, hs,
    String.ofList_toList]
  rfl

theorem yields_doctype_of_isWord {s : String} (hne : s ≠ "") (h : IsWord s) :
    Yields ("<!DOCTYPE " ++ s ++ ">").toList [.doctype s] :=
  yields_doctype hne (trim_of_solid (solid_of_isWord h)) <| afterDoctype?_append fun c hc => by
    simp [Quote.ofChar?, ne_of_class (h c hc)]

/-- A comment is read back if it does not hold its closing mark. -/
theorem yields_comment {s : String} (h : ¬ ['-', '-', '>'] <:+: s.toList) :
    Yields ("<!--" ++ s ++ "-->").toList [.comment s] := by
  refine Yields.of_push (fun b => rfl) fun whole b rest => ?_
  have he : ("<!--" ++ s ++ "-->").toList ++ rest =
      '<' :: '!' :: '-' :: '-' :: (s.toList ++ '-' :: '-' :: '>' :: rest) := by simp
  rw [he, resume_comment h, String.ofList_toList]

/-- A declaration names itself: up to its first blank it reads `xml`. -/
theorem takeWhile_of_isDeclaration {content : List Char} (h : isDeclaration content = true) :
    content.takeWhile (! isBlank ·) = "xml".toList := by
  rw [isDeclaration] at h
  split at h
  · rename_i hd
    rw [dropPrefix?_eq_some_iff.mp hd]
    rfl
  · rename_i c cs hd
    rw [dropPrefix?_eq_some_iff.mp hd]
    simp [isBlank_of_isXmlBlank h, List.takeWhile, show isBlank 'x' = false from rfl,
      show isBlank 'm' = false from rfl, show isBlank 'l' = false from rfl]
  · cases h

/-- What is written of an instruction between its marks. -/
def instructionContent (target data : String) : List Char :=
  target.toList ++ if data = "" then [] else ' ' :: data.toList

theorem takeWhile_instructionContent {target : String} (h : Solid target.toList) (data : String) :
    (instructionContent target data).takeWhile (! isBlank ·) = target.toList ∧
      (instructionContent target data).dropWhile (! isBlank ·) =
        if data = "" then [] else ' ' :: data.toList := by
  have hp : ∀ c ∈ target.toList, (! isBlank c) = true := fun c hc => by simp [h c hc]
  rw [instructionContent, List.takeWhile_append_of_pos hp, List.dropWhile_append_of_pos hp]
  split
  · exact ⟨List.append_nil _, rfl⟩
  · exact ⟨List.append_nil _, rfl⟩

/-- The content of an instruction is taken apart again. -/
theorem instruction_instructionContent {target data : String} (ht : Solid target.toList)
    (hd : trim data.toList = data.toList) :
    Builder.instruction (instructionContent target data) = .instruction target data := by
  obtain ⟨htake, hdrop⟩ := takeWhile_instructionContent ht data
  rw [Builder.instruction, htake, hdrop, String.ofList_toList]
  congr 1
  split
  · rename_i he
    rw [he]
    rfl
  · have htrim : trim (' ' :: data.toList) = trim data.toList := by
      rw [trim, List.dropWhile_cons_of_pos (by decide), trim]
    rw [htrim, hd, String.ofList_toList]

theorem readToken_instruction {target data : String} (hx : target ≠ "xml")
    (ht : Solid target.toList)
    (hm : ¬ ['?', '>'] <:+: '?' :: instructionContent target data) (rest : List Char) :
    readToken '<' ('?' :: (instructionContent target data ++ '?' :: '>' :: rest)) =
      .ok (.instruction (instructionContent target data), rest) := by
  have hb : breakOn? ['?', '>'] ('?' :: (instructionContent target data ++ '?' :: '>' :: rest)) =
      some ('?' :: instructionContent target data, rest) :=
    breakOn?_of_not_infix (by decide : '>' ∉ ['?']) hm rest
  have hdecl : isDeclaration (instructionContent target data) = false := by
    refine Bool.eq_false_iff.mpr fun h => hx (String.toList_inj.mp ?_)
    rw [← (takeWhile_instructionContent ht data).1, takeWhile_of_isDeclaration h]
  show readInstruction ('?' :: (instructionContent target data ++ '?' :: '>' :: rest)) = _
  rw [readInstruction, hb]
  dsimp only
  rw [if_neg (by simp [hdecl])]

/-- An instruction is read back if it does not hold its closing mark. -/
theorem yields_instruction {target data : String} (hx : target ≠ "xml")
    (ht : Solid target.toList) (hd : trim data.toList = data.toList)
    (hm : ¬ ['?', '>'] <:+: '?' :: instructionContent target data) :
    Yields (writeInstruction target data).toList [.instruction target data] := by
  refine Yields.of_push (fun b => rfl) fun whole b rest => ?_
  have he : (writeInstruction target data).toList ++ rest =
      '<' :: '?' :: (instructionContent target data ++ '?' :: '>' :: rest) := by
    rw [writeInstruction, instructionContent]
    split <;> simp
  rw [he, resume_of_readToken (readToken_instruction hx ht hm rest), Builder.step,
    instruction_instructionContent ht hd]
  rfl

theorem yields_instruction_of_isWord {target data : String} (hx : target ≠ "xml")
    (ht : IsWord target) (hd : IsWord data) :
    Yields (writeInstruction target data).toList [.instruction target data] := by
  refine yields_instruction hx (solid_of_isWord ht) (trim_of_solid (solid_of_isWord hd))
    (not_infix_of_not_mem (c := '>') (by decide) ?_)
  have h₁ := not_mem_of_isWord ht (c := '>') (by decide)
  have h₂ := not_mem_of_isWord hd (c := '>') (by decide)
  rw [instructionContent]
  split <;> simp [h₁, h₂]

/-! ### Nodes -/

/-- The content of a raw-text element yields its children. -/
theorem yields_rawContent {ns : List Node} (h : IsRawContent ns) :
    Yields (String.join (ns.filterMap Node.text?)).toList ns := by
  unfold IsRawContent at h
  split at h
  · exact yields_nil
  · rename_i s
    obtain ⟨hamp, hlt⟩ := h
    have hw : Words s.toList s.toList := words_self fun c hc => by
      simp [isText, ne_of_mem_of_not_mem hc hamp, ne_of_mem_of_not_mem hc hlt]
    have he : (String.join ([Node.text s].filterMap Node.text?)) = s := by simp [Node.text?]
    have hy := hw.yields
    rw [String.ofList_toList] at hy
    rw [he]
    exact hy
  · exact h.elim

/-- The attributes of a normal element are read back. -/
theorem readable_of_isMarkupName {attrs : KeyedList String String}
    (hattrs : ∀ attr ∈ attrs, IsMarkupName attr.1) (hnodup : (attrs.map Prod.fst).Nodup) :
    Readable (List.flatMap (escapeChar true)) (rawAttributes attrs) :=
  readable_rawAttributes (fun attr ha => (hattrs attr ha).isTagName) hnodup
    (fun _ _ => quote_not_mem_escapeAttribute _) fun _ _ => unescape_escapeAttribute _

/-- So is the tag of a normal element. -/
theorem writable_of_isMarkupName {name : String} {attrs : KeyedList String String}
    (hname : IsMarkupName name) (hattrs : ∀ attr ∈ attrs, IsMarkupName attr.1)
    (hnodup : (attrs.map Prod.fst).Nodup) :
    Writable (List.flatMap (escapeChar true)) name.toList (rawAttributes attrs) :=
  hname.isTagName.writable (isTagName_rawAttributes fun attr ha => (hattrs attr ha).isTagName)
    (readable_of_isMarkupName hattrs hnodup)

section Elements

variable {name : String} {attrs : KeyedList String String}
  (hn : Writable (List.flatMap (escapeChar true)) name.toList (rawAttributes attrs))
  (hr : Readable (List.flatMap (escapeChar true)) (rawAttributes attrs))

include hn hr

/-- A void element is its start tag. -/
theorem yields_startTag (hv : isVoid name = true) :
    Yields (startTag name attrs).toList [.element name attrs []] := by
  have hy := yields_void hn hr (by rw [String.ofList_toList]; exact hv)
  rw [String.ofList_toList, attributes_rawAttributes, ← toList_startTag] at hy
  exact hy

/-- Any other element is what its content is, between its tags. -/
theorem yields_between {inner : String} {cs : List Node} (hv : isVoid name = false)
    (hinner : Yields inner.toList cs) (hs : Separated cs) :
    Yields (startTag name attrs ++ inner ++ endTag name).toList [.element name attrs cs] := by
  have hy := yields_element hn hr
    (by rw [String.ofList_toList]; exact hv) hinner hs
  rw [String.ofList_toList, attributes_rawAttributes] at hy
  have he : (startTag name attrs ++ inner ++ endTag name).toList =
      '<' :: (tagMarkup (List.flatMap (escapeChar true)) name.toList (rawAttributes attrs) ++
        '>' :: (inner.toList ++ '<' :: '/' :: (name.toList ++ ['>']))) := by
    simp [toList_startTag, endTag]
  rw [he]
  exact hy

end Elements

/-- Without a layout an element is its tags around its content, at any depth. -/
theorem write_element_plain (name : String) (attrs : KeyedList String String) (cs : List Node)
    (depth : Nat) :
    (Node.element name attrs cs).write .plain depth =
      if isVoid name && cs.isEmpty then startTag name attrs
      else startTag name attrs ++ (if isRawText name then String.join (cs.filterMap Node.text?)
        else Node.writeAll .plain (depth + 1) cs) ++ endTag name := by
  have hbreak (k : Nat) : Layout.plain.lineBreak k = "" := rfl
  have hopening : (if 0 < depth then Layout.plain.lineBreak depth else "") ++
      startTag name attrs = startTag name attrs := by
    rw [hbreak, ite_self, String.empty_append]
  rw [Node.write, hopening, hbreak, ite_self, String.append_empty]

mutual

/-- A normal node is read back from its markup, at any depth of nesting. -/
theorem yields_write : (n : Node) → n.Normal → (depth : Nat) →
    Yields (n.write .plain depth).toList [n]
  | .text s, _, _ => by
    have hy := (words_escapeText s.toList).yields
    rw [String.ofList_toList] at hy
    rw [Node.write, escapeText, String.toList_ofList]
    exact hy
  | .element name attrs cs, h, depth => by
    obtain ⟨hname, hattrs, hnodup, hvoid, hraw, hcs⟩ := h
    have hn := writable_of_isMarkupName hname hattrs hnodup
    have hr := readable_of_isMarkupName hattrs hnodup
    rw [write_element_plain]
    cases hv : isVoid name with
    | true =>
      obtain rfl := hvoid hv
      exact yields_startTag hn hr hv
    | false =>
      rw [Bool.false_and, if_neg Bool.false_ne_true]
      refine yields_between hn hr hv ?_ (Node.separated_of_normalAll hcs)
      split
      · exact yields_rawContent (hraw ‹_›)
      · exact yields_writeAll cs hcs (depth + 1)
  | .comment s, h, _ => yields_comment (not_infix_of_not_mem (c := '>') (by decide) h)
  | .doctype s, h, _ => yields_doctype_of_isWord h.1 h.2
  | .instruction target data, h, _ => yields_instruction_of_isWord h.1 h.2.1 h.2.2
  | .fragment _, h, _ => h.elim

/-- Normal nodes are read back from their markup. -/
theorem yields_writeAll : (ns : List Node) → Node.NormalAll ns → (depth : Nat) →
    Yields (Node.writeAll .plain depth ns).toList ns
  | [], _, _ => yields_nil
  | n :: ns, h, depth => by
    rw [Node.writeAll, String.toList_append]
    exact (yields_write n h.1 depth).append (yields_writeAll ns h.2.2 depth)

end

theorem join_outerHtml (ns : List Node) :
    String.join (ns.map Node.outerHtml) = Node.writeAll .plain 0 ns := by
  induction ns with
  | nil => rfl
  | cons n ns ih => rw [List.map_cons, String.join_cons, ih]; rfl

/-- The markup of a normal node begins with a bracket or a reference, or as its text does. -/
theorem exists_write_eq_cons {n : Node} (h : n.Normal)
    (hb : ∀ s, n = .text s → s.toList.head? ≠ some '\uFEFF') :
    ∃ c cs, (n.write .plain 0).toList = c :: cs ∧ c ≠ '\uFEFF' := by
  cases n with
  | text s =>
    obtain ⟨c, cs, hs⟩ := List.exists_cons_of_ne_nil fun he => h (String.toList_eq_nil_iff.mp he)
    rw [Node.write, escapeText, String.toList_ofList, hs, List.flatMap_cons]
    rcases escapeChar_cases false c with ⟨body, he, _, _⟩ | ⟨he, _, _⟩
    · exact ⟨'&', _, by rw [he]; rfl, by decide⟩
    · exact ⟨c, _, by rw [he]; rfl, fun hc => hb s rfl (by rw [hs, hc]; rfl)⟩
  | element name attrs cs =>
    rw [Node.write]
    split <;> exact ⟨'<', _, by simp [toList_startTag]; rfl, by decide⟩
  | comment s => exact ⟨'<', _, by simp [Node.write]; rfl, by decide⟩
  | doctype s => exact ⟨'<', _, by simp [Node.write]; rfl, by decide⟩
  | instruction target data =>
    exact ⟨'<', _, by simp [Node.write, writeInstruction]; rfl, by decide⟩
  | fragment cs => exact h.elim

/-- The lenient reader undoes plain writing: normal nodes are read back from their markup, if it
does not begin with a byte-order mark. -/
theorem parse_outerHtml {ns : List Node} (h : Node.NormalAll ns)
    (hb : ∀ s, ns.head? = some (.text s) → s.toList.head? ≠ some '\uFEFF') :
    parse .lenient (String.join (ns.map Node.outerHtml)) = .ok ns := by
  rw [parse, join_outerHtml]
  refine parseChars_of_yields (dropByteOrderMark_of_head? ?_) (yields_writeAll ns h 0)
    (Node.separated_of_normalAll h)
  cases ns with
  | nil => exact nofun
  | cons n ns =>
    obtain ⟨c, cs, he, hc⟩ := exists_write_eq_cons h.1 fun s hs => hb s (congrArg some hs)
    rw [Node.writeAll, String.toList_append, he]
    exact fun heq => hc (Option.some.inj heq)

theorem parse_outerHtml_page :
    let ns : List Node :=
      [.text "\"<\"", .doctype "html", .comment "a -- b",
        .element "div" [("class", "x & \"y\""), ("id", "")]
          [.text "1 < 2 & é]]>", .element "br" [] [], .text "\uFEFF",
            .element "script" [] [.text "if (a > b) f(\"c\")"]],
        .instruction "php" "echo", .text "end"]
    Node.NormalAll ns ∧ parse .lenient (String.join (ns.map Node.outerHtml)) = .ok ns := by
  intro ns
  have h : Node.NormalAll ns := by decide
  exact ⟨h, parse_outerHtml h fun s hs => by cases hs; decide⟩

end Markup

end MarkupTemplate
