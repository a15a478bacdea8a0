import MarkupTemplate.Proofs.Dom.Content

/-!
# Line breaks in the pretty layout

The pretty layout puts line breaks before tags, each followed by indentation, and changes nothing
else. So if the parts of a node hold no newlines of their own, and the indentation no bracket, the
plain markup is what remains of the pretty one when each newline is deleted together with
everything up to the next bracket.

## Main definitions

* `MarkupTemplate.Dom.Spread` — a markup with line breaks put in before tags.
* `MarkupTemplate.Dom.dropBreaks` — deletes each newline with all up to the next bracket.
* `MarkupTemplate.Dom.Node.strings` — the strings that a node is made of.

## Main results

* `MarkupTemplate.Dom.Node.spread_write` — the pretty layout only puts in line breaks before tags.
* `MarkupTemplate.Dom.dropBreaks_of_spread` — which can be deleted again.
* `MarkupTemplate.Dom.Node.dropBreaks_pretty` — the plain markup from the pretty one.
-/

namespace MarkupTemplate.Dom

/-! ### Markup with line breaks -/

/-- The tags of elements. -/
inductive IsTag : String → Prop
  | starting (name : String) (attrs : KeyedList String String) : IsTag (startTag name attrs)
  | ending (name : String) : IsTag (endTag name)

/-- The second markup is the first one with line breaks put in before tags, each with some levels of
indentation behind it. -/
inductive Spread (indent : String) : String → String → Prop
  | nil : Spread indent "" ""
  | keep (s : String) {a b : String} : Spread indent a b → Spread indent (s ++ a) (s ++ b)
  | line (depth : Nat) {tag a b : String} : IsTag tag → Spread indent a b →
      Spread indent (tag ++ a) ("\n" ++ String.join (List.replicate depth indent) ++ tag ++ b)

namespace Spread

variable {indent a b c d : String}

theorem append (h : Spread indent a b) (h' : Spread indent c d) :
    Spread indent (a ++ c) (b ++ d) := by
  induction h with
  | nil => rwa [String.empty_append, String.empty_append]
  | keep s _ ih =>
    rw [String.append_assoc, String.append_assoc]
    exact .keep s ih
  | line depth htag _ ih =>
    rw [String.append_assoc, String.append_assoc]
    exact .line depth htag ih

theorem refl (s : String) : Spread indent s s := by
  have h : Spread indent (s ++ "") (s ++ "") := .keep s .nil
  rwa [String.append_empty] at h

/-- A tag, perhaps on a line of its own. -/
theorem tag {tag : String} (htag : IsTag tag) (p : Prop) [Decidable p] (depth : Nat) :
    Spread indent tag ((if p then Layout.lineBreak ⟨true, indent⟩ depth else "") ++ tag) := by
  by_cases hp : p
  · rw [if_pos hp]
    have h : Spread indent (tag ++ "") _ := .line depth htag .nil
    rwa [String.append_empty, String.append_empty] at h
  · rw [if_neg hp, String.empty_append]
    exact refl tag

/-- Markup and a tag behind it, perhaps on a line of its own. -/
theorem append_tag (h : Spread indent a b) {tag : String} (htag : IsTag tag) (p : Prop)
    [Decidable p] (depth : Nat) :
    Spread indent (a ++ tag)
      (b ++ (if p then Layout.lineBreak ⟨true, indent⟩ depth else "") ++ tag) := by
  rw [@String.append_assoc b]
  exact h.append (Spread.tag htag p depth)

end Spread

namespace Node

mutual

/-- The pretty layout only puts in line breaks before tags. -/
theorem spread_write (indent : String) : (n : Node) → (depth : Nat) →
    Spread indent n.outerHtml (n.write ⟨true, indent⟩ depth)
  | fragment cs, depth => spread_writeAll indent cs depth
  | element name attrs cs, depth => by
    have hopening : Spread indent (startTag name attrs) _ :=
      .tag (.starting name attrs) (0 < depth) depth
    rw [outerHtml, outer, Markup.write_element_plain, write]
    split
    · exact hopening
    · refine (hopening.append ?_).append_tag (.ending name) (cs.any isElement = true) depth
      split
      · exact .refl _
      · rw [writeAll_of_not_pretty rfl]
        exact spread_writeAll indent cs (depth + 1)
  | text _, _ => .refl _
  | comment _, _ => .refl _
  | doctype _, _ => .refl _
  | instruction .., _ => .refl _

/-- So it does with a list of nodes. -/
theorem spread_writeAll (indent : String) : (ns : List Node) → (depth : Nat) →
    Spread indent (writeAll .plain 0 ns) (writeAll ⟨true, indent⟩ depth ns)
  | [], _ => .nil
  | n :: ns, depth => (spread_write indent n depth).append (spread_writeAll indent ns depth)

end

end Node

/-! ### Deleting line breaks -/

/-- Deletes newlines and, behind one, everything up to the next bracket. While `skipping` the last
newline is still without its bracket. -/
def dropBreaksFrom (skipping : Bool) : List Char → List Char
  | [] => []
  | c :: cs =>
    if c = '\n' ∨ skipping = true ∧ c ≠ '<' then dropBreaksFrom true cs
    else c :: dropBreaksFrom false cs

/-- The text without its newlines and without what stands between a newline and the next
bracket. -/
def dropBreaks (s : String) : String := String.ofList (dropBreaksFrom false s.toList)

/-- A newline goes together with everything up to the next bracket. -/
theorem dropBreaksFrom_true (cs : List Char) :
    dropBreaksFrom true cs = dropBreaksFrom false (cs.dropWhile (· ≠ '<')) := by
  induction cs with
  | nil => rfl
  | cons c cs ih =>
    by_cases hc : c = '<'
    · subst hc
      rfl
    · rw [dropBreaksFrom, if_pos (.inr ⟨rfl, hc⟩), ih,
        List.dropWhile_cons_of_pos (by simpa using hc)]

/-- What stands before the first newline stays. -/
theorem dropBreaksFrom_append {cs : List Char} (h : '\n' ∉ cs) (rest : List Char) :
    dropBreaksFrom false (cs ++ rest) = cs ++ dropBreaksFrom false rest := by
  induction cs with
  | nil => rfl
  | cons c cs ih =>
    rw [List.mem_cons, not_or] at h
    obtain ⟨hc, hcs⟩ := h
    rw [List.cons_append, dropBreaksFrom, if_neg (by simp [Ne.symm hc]), ih hcs, List.cons_append]

/-- A line break is deleted with its indentation. -/
theorem dropBreaksFrom_newline {cs : List Char} (h : '<' ∉ cs) (rest : List Char) :
    dropBreaksFrom false ('\n' :: (cs ++ '<' :: rest)) = dropBreaksFrom false ('<' :: rest) := by
  have hp : ∀ c ∈ cs, decide (c ≠ '<') = true := fun c hc => by
    simpa using ne_of_mem_of_not_mem hc h
  rw [dropBreaksFrom, if_pos (.inl rfl), dropBreaksFrom_true, List.dropWhile_append_of_pos hp,
    List.dropWhile_cons_of_neg (by simp)]

theorem IsTag.exists_toList_eq {tag : String} (h : IsTag tag) : ∃ cs, tag.toList = '<' :: cs := by
  cases h with
  | starting name attrs => exact ⟨_, by simp [startTag]; rfl⟩
  | ending name => exact ⟨_, by simp [endTag]; rfl⟩

/-- A tag on a line of its own is all that remains of the line. -/
theorem dropBreaksFrom_line {tag : String} (htag : IsTag tag) (ht : '\n' ∉ tag.toList)
    {cs : List Char} (h : '<' ∉ cs) (rest : List Char) :
    dropBreaksFrom false ('\n' :: (cs ++ (tag.toList ++ rest))) =
      tag.toList ++ dropBreaksFrom false rest := by
  obtain ⟨ds, hds⟩ := htag.exists_toList_eq
  calc dropBreaksFrom false ('\n' :: (cs ++ (tag.toList ++ rest)))
      = dropBreaksFrom false (tag.toList ++ rest) := by
        rw [hds, List.cons_append]
        exact dropBreaksFrom_newline h (ds ++ rest)
    _ = tag.toList ++ dropBreaksFrom false rest := dropBreaksFrom_append ht rest

theorem not_mem_indentation {indent : String} (h : '<' ∉ indent.toList) (depth : Nat) :
    '<' ∉ (String.join (List.replicate depth indent)).toList := by
  rw [String.toList_join, List.mem_flatMap]
  rintro ⟨s, hs, hmem⟩
  rw [List.eq_of_mem_replicate hs] at hmem
  exact h hmem

/-- From a markup without newlines, line breaks before tags can be put in and deleted again. -/
theorem dropBreaks_of_spread {indent a b : String} (h : Spread indent a b)
    (hi : '<' ∉ indent.toList) (ha : '\n' ∉ a.toList) : dropBreaks b = a := by
  have hlist : dropBreaksFrom false b.toList = a.toList := by
    induction h with
    | nil => rfl
    | keep s _ ih =>
      rw [String.toList_append, List.mem_append, not_or] at ha
      rw [String.toList_append, String.toList_append, dropBreaksFrom_append ha.1, ih ha.2]
    | line depth htag _ ih =>
      rw [String.toList_append, List.mem_append, not_or] at ha
      have hline := dropBreaksFrom_line htag ha.1 (not_mem_indentation hi depth)
      simp only [String.toList_append, ← ih ha.2, ← hline, List.append_assoc]
      rfl
  rw [dropBreaks, hlist, String.ofList_toList]

/-! ### Nodes without newlines -/

namespace Node

mutual

/-- The strings that a node is made of: names, attribute values and contents, on all levels. -/
def strings : Node → List String
  | element name attrs cs => name :: (attrs.flatMap fun attr => [attr.1, attr.2]) ++ stringsAll cs
  | text content => [content]
  | comment content => [content]
  | doctype content => [content]
  | instruction target data => [target, data]
  | fragment cs => stringsAll cs

/-- The strings that the nodes of a list are made of. -/
def stringsAll : List Node → List String
  | [] => []
  | n :: ns => strings n ++ stringsAll ns

end

end Node

/-- Escapes hold no newlines. -/
theorem newline_not_mem_escape (quotes : Bool) {s : String} (h : '\n' ∉ s.toList) :
    '\n' ∉ s.toList.flatMap (escapeChar quotes) := by
  intro hmem
  obtain ⟨c, hc, hn⟩ := List.mem_flatMap.mp hmem
  rcases Markup.escapeChar_cases quotes c with ⟨body, he, _, hb⟩ | ⟨he, _, _⟩
  · rw [he] at hn
    have hbody : '\n' ∈ body := by simpa using hn
    exact absurd (hb '\n' hbody) (by decide)
  · rw [he, List.mem_singleton] at hn
    exact h (hn ▸ hc)

theorem newline_not_mem_join {l : List String} (h : ∀ s ∈ l, '\n' ∉ s.toList) :
    '\n' ∉ (String.join l).toList := by
  rw [String.toList_join, List.mem_flatMap]
  rintro ⟨s, hs, hmem⟩
  exact h s hs hmem

theorem newline_not_mem_writeAttribute {attr : String × String} (hname : '\n' ∉ attr.1.toList)
    (hvalue : '\n' ∉ attr.2.toList) : '\n' ∉ (writeAttribute attr).toList := by
  simp [writeAttribute, escapeAttribute, hname, newline_not_mem_escape true hvalue]

theorem newline_not_mem_startTag {name : String} {attrs : KeyedList String String}
    (hname : '\n' ∉ name.toList)
    (hattrs : ∀ attr ∈ attrs, '\n' ∉ attr.1.toList ∧ '\n' ∉ attr.2.toList) :
    '\n' ∉ (startTag name attrs).toList := by
  have hjoin : '\n' ∉ (String.join (attrs.map writeAttribute)).toList :=
    newline_not_mem_join <| List.forall_mem_map.mpr fun attr ha =>
      newline_not_mem_writeAttribute (hattrs attr ha).1 (hattrs attr ha).2
  rw [startTag, String.toList_append, String.toList_append, String.toList_append]
  simp only [List.mem_append, hname, hjoin, or_false]
  decide

theorem newline_not_mem_endTag {name : String} (h : '\n' ∉ name.toList) :
    '\n' ∉ (endTag name).toList := by
  simp [endTag, h]

namespace Node

theorem mem_stringsAll {ns : List Node} {n : Node} (hn : n ∈ ns) {s : String}
    (hs : s ∈ n.strings) : s ∈ stringsAll ns := by
  induction ns with
  | nil => cases hn
  | cons m ns ih =>
    rw [stringsAll, List.mem_append]
    rcases List.mem_cons.mp hn with rfl | hn
    · exact .inl hs
    · exact .inr (ih hn)

theorem newline_not_mem_rawText {ns : List Node} (h : ∀ s ∈ stringsAll ns, '\n' ∉ s.toList) :
    '\n' ∉ (rawText ns).toList := by
  refine newline_not_mem_join fun s hs => h s ?_
  obtain ⟨n, hn, htext⟩ := List.mem_filterMap.mp hs
  refine mem_stringsAll hn ?_
  cases n with
  | text content =>
    obtain rfl : content = s := Option.some.inj htext
    exact List.mem_singleton_self content
  | _ => cases htext

mutual

/-- The plain markup of a node holds no newlines that its strings do not hold. -/
theorem newline_not_mem_outerHtml : (n : Node) → (∀ s ∈ n.strings, '\n' ∉ s.toList) →
    '\n' ∉ n.outerHtml.toList
  | fragment cs, h => newline_not_mem_writeAll cs h
  | element name attrs cs, h => by
    rw [strings, List.cons_append, List.forall_mem_cons, List.forall_mem_append,
      List.forall_mem_flatMap] at h
    obtain ⟨hname, hattrs, hcs⟩ := h
    have hstart : '\n' ∉ (startTag name attrs).toList :=
      newline_not_mem_startTag hname fun attr ha =>
        ⟨hattrs attr ha _ (by simp), hattrs attr ha _ (by simp)⟩
    have hcontent :
        '\n' ∉ (if isRawText name then rawText cs else writeAll .plain 1 cs).toList := by
      split
      · exact newline_not_mem_rawText hcs
      · rw [writeAll_of_not_pretty rfl]
        exact newline_not_mem_writeAll cs hcs
    rw [outerHtml, outer, Markup.write_element_plain]
    split
    · exact hstart
    · rw [String.toList_append, String.toList_append, List.mem_append, List.mem_append, not_or,
        not_or]
      exact ⟨⟨hstart, hcontent⟩, newline_not_mem_endTag hname⟩
  | text s, h => by
    rw [outerHtml, outer, write, escapeText, String.toList_ofList]
    exact newline_not_mem_escape false (h s (List.mem_singleton_self s))
  | comment s, h => by
    simpa [outerHtml, outer, write] using h s (by simp [strings])
  | doctype s, h => by
    simpa [outerHtml, outer, write] using h s (by simp [strings])
  | instruction target data, h => by
    have ht := h target (by simp [strings])
    have hd := h data (by simp [strings])
    rw [outerHtml, outer, write, writeInstruction]
    split <;> simp [ht, hd]

/-- Nor does the markup of a list of nodes. -/
theorem newline_not_mem_writeAll : (ns : List Node) → (∀ s ∈ stringsAll ns, '\n' ∉ s.toList) →
    '\n' ∉ (writeAll .plain 0 ns).toList
  | [], _ => by simp [writeAll]
  | n :: ns, h => by
    rw [stringsAll, List.forall_mem_append] at h
    rw [writeAll, String.toList_append, List.mem_append]
    exact not_or.mpr ⟨newline_not_mem_outerHtml n h.1, newline_not_mem_writeAll ns h.2⟩

end

theorem mem_stringsAll_children (n : Node) {s : String} (h : s ∈ stringsAll n.children) :
    s ∈ n.strings := by
  cases n with
  | element name attrs cs =>
    rw [strings]
    exact List.mem_append_right _ h
  | fragment cs => exact h
  | _ => cases h

/-- The pretty layout only puts in line breaks before tags, with some levels of indentation behind
them. If no string of a node holds a newline and the indentation no bracket, then its plain markup
and that of its children are what remains of the pretty ones when each newline is deleted together
with everything up to the next bracket. -/
theorem dropBreaks_pretty (n : Node) (indent indent' : String)
    (hn : ∀ s ∈ n.strings, '\n' ∉ s.toList) (hi : '<' ∉ indent.toList) :
    let pretty : Layout := ⟨true, indent⟩
    let plain : Layout := ⟨false, indent'⟩
    (Spread indent (n.outer plain) (n.outer pretty) ∧
        dropBreaks (n.outer pretty) = n.outer plain) ∧
      Spread indent (n.inner plain) (n.inner pretty) ∧
        dropBreaks (n.inner pretty) = n.inner plain := by
  intro pretty plain
  have houter : n.outer plain = n.outerHtml := write_of_not_pretty rfl 0 n
  have hinner : n.inner plain = n.innerHtml := writeAll_of_not_pretty rfl 0 n.children
  have hspread : Spread indent n.outerHtml (n.outer pretty) := spread_write indent n 0
  have hspreads : Spread indent n.innerHtml (n.inner pretty) := spread_writeAll indent n.children 0
  have hline : '\n' ∉ n.outerHtml.toList := newline_not_mem_outerHtml n hn
  have hlines : '\n' ∉ n.innerHtml.toList :=
    newline_not_mem_writeAll n.children fun s hs => hn s (mem_stringsAll_children n hs)
  rw [houter, hinner]
  exact ⟨⟨hspread, dropBreaks_of_spread hspread hi hline⟩,
    hspreads, dropBreaks_of_spread hspreads hi hlines⟩

theorem dropBreaks_pretty_list :
    let n := fragment [text "a", element "ul" [("id", "1")]
      [element "li" [] [text "b > c"], comment "d", fragment [element "br" [] []]]]
    (∀ s ∈ n.strings, '\n' ∉ s.toList) ∧ '<' ∉ "\t>".toList ∧
      n.outer ⟨true, "\t>"⟩ =
        "a<ul id=\"1\">\n\t><li>b &gt; c</li><!--d-->\n\t><br>\n</ul>" ∧
      dropBreaks (n.outer ⟨true, "\t>"⟩) = n.outer ⟨false, "\t>"⟩ := by
  intro n
  have hn : ∀ s ∈ n.strings, '\n' ∉ s.toList := by decide
  have hi : '<' ∉ "\t>".toList := by decide
  exact ⟨hn, hi, by decide, (dropBreaks_pretty n "\t>" "\t>" hn hi).1.2⟩

end Node

end MarkupTemplate.Dom
