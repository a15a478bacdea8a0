import Mathlib.Data.List.Basic
import MarkupTemplate.Proofs.Markup.RoundTrip

/-!
# The content between two tags

An element is written as its start tag, its content and its end tag. In general its content is what
is written of its children. In a raw-text element it is their texts, without escapes, and children
that are no texts are left out. The children on their own are always written with escapes, and all
of them, so for a raw-text element they need not give what stands between its tags.

## Main definitions

* `MarkupTemplate.Dom.Node.rawText` — the texts among nodes, one after the other.
* `MarkupTemplate.Dom.Node.IsVerbatim` — nodes that are written as their own text.

## Main results

* `MarkupTemplate.Dom.Node.write_of_not_pretty` — without line breaks no depth shows.
* `MarkupTemplate.Dom.Node.rawText_eq_writeAll_iff` — when nodes are written as their texts.
* `MarkupTemplate.Dom.Node.outerHtml_element` — an element is its tags around its content, and when
  the content is what is written of its children.
-/

namespace MarkupTemplate.Dom

/-! ### Escapes -/

/-- The characters that stand as they are in a written text. -/
def isUnescaped (c : Char) : Bool := c != '&' && c != '<' && c != '>'

theorem length_escapeChar (c : Char) :
    1 ≤ (escapeChar false c).length ∧ ((escapeChar false c).length = 1 ↔ isUnescaped c = true) := by
  rw [escapeChar]
  split
  · simp [isUnescaped, *]
  split
  · simp [isUnescaped, *]
  split
  · simp [isUnescaped, *]
  · simp [isUnescaped, *]

/-- Escapes make a text longer, unless there are none. -/
theorem length_flatMap_escapeChar (cs : List Char) :
    cs.length ≤ (cs.flatMap (escapeChar false)).length ∧
      ((cs.flatMap (escapeChar false)).length = cs.length ↔ ∀ c ∈ cs, isUnescaped c = true) := by
  induction cs with
  | nil => simp
  | cons c cs ih =>
    obtain ⟨hc, hiff⟩ := length_escapeChar c
    rw [List.flatMap_cons, List.length_append, List.length_cons, List.forall_mem_cons, ← hiff,
      ← ih.2]
    omega

theorem escapeChar_of_isUnescaped {c : Char} (h : isUnescaped c = true) :
    escapeChar false c = [c] := by
  simp only [isUnescaped, Bool.and_eq_true, bne_iff_ne, ne_eq] at h
  simp [escapeChar, h.1.1, h.1.2, h.2]

theorem escapeText_of_isUnescaped {s : String} (h : ∀ c ∈ s.toList, isUnescaped c = true) :
    escapeText s = s := by
  have hself : s.toList.flatMap (escapeChar false) = s.toList := by
    rw [List.flatMap_congr fun c hc => escapeChar_of_isUnescaped (h c hc), List.flatMap_singleton']
  rw [escapeText, hself, String.ofList_toList]

theorem length_escapeText (s : String) :
    s.length ≤ (escapeText s).length ∧
      ((escapeText s).length = s.length ↔ ∀ c ∈ s.toList, isUnescaped c = true) := by
  rw [escapeText, String.length_ofList, ← String.length_toList]
  exact length_flatMap_escapeChar s.toList

/-! ### Layouts without line breaks -/

theorem Layout.lineBreak_of_not_pretty {layout : Layout} (h : layout.pretty = false)
    (depth : Nat) : layout.lineBreak depth = "" := by
  rw [Layout.lineBreak, h]
  rfl

namespace Node

mutual

/-- Without line breaks a node is written alike at all depths and with all indentations. -/
theorem write_congr {layout layout' : Layout} (h : layout.pretty = false)
    (h' : layout'.pretty = false) : (n : Node) → (depth depth' : Nat) →
    n.write layout depth = n.write layout' depth'
  | fragment cs, depth, depth' => writeAll_congr h h' cs depth depth'
  | element name attrs cs, depth, depth' => by
    rw [write, write, writeAll_congr h h' cs (depth + 1) (depth' + 1)]
    simp only [Layout.lineBreak_of_not_pretty h, Layout.lineBreak_of_not_pretty h', ite_self]
  | text _, _, _ => rfl
  | comment _, _, _ => rfl
  | doctype _, _, _ => rfl
  | instruction .., _, _ => rfl

/-- So are the nodes of a list. -/
theorem writeAll_congr {layout layout' : Layout} (h : layout.pretty = false)
    (h' : layout'.pretty = false) : (ns : List Node) → (depth depth' : Nat) →
    writeAll layout depth ns = writeAll layout' depth' ns
  | [], _, _ => rfl
  | n :: ns, depth, depth' => by
    rw [writeAll, writeAll, write_congr h h' n depth depth', writeAll_congr h h' ns depth depth']

end

theorem write_of_not_pretty {layout : Layout} (h : layout.pretty = false) (depth : Nat)
    (n : Node) : n.write layout depth = n.outerHtml :=
  write_congr h rfl n depth 0

theorem writeAll_of_not_pretty {layout : Layout} (h : layout.pretty = false) (depth : Nat)
    (ns : List Node) : writeAll layout depth ns = writeAll .plain 0 ns :=
  writeAll_congr h rfl ns depth 0

/-! ### Raw text -/

/-- The texts among nodes, one after the other. -/
def rawText (ns : List Node) : String := String.join (ns.filterMap text?)

/-- Nodes that are written as their own text, without escapes. A node that is no text has none, so
it must not be written at all. -/
def IsVerbatim : Node → Prop
  | text s => ∀ c ∈ s.toList, isUnescaped c = true
  | n => n.outerHtml = ""

theorem rawText_cons (n : Node) (ns : List Node) :
    rawText (n :: ns) = rawText [n] ++ rawText ns := by
  cases h : n.text? with
  | none => simp [rawText, h]
  | some s => simp [rawText, h]

/-- No node is written with less than its text, and with nothing else only verbatim ones. -/
theorem length_rawText_singleton (n : Node) :
    (rawText [n]).length ≤ n.outerHtml.length ∧
      (n.outerHtml.length = (rawText [n]).length ↔ n.IsVerbatim) := by
  cases n with
  | text s =>
    have he : rawText [text s] = s := by simp [rawText, text?]
    rw [he]
    exact length_escapeText s
  | _ => exact ⟨Nat.zero_le _, String.length_eq_zero_iff⟩

theorem outerHtml_of_isVerbatim {n : Node} (h : n.IsVerbatim) : n.outerHtml = rawText [n] := by
  cases n with
  | text s =>
    have he : rawText [text s] = s := by simp [rawText, text?]
    rw [he]
    exact escapeText_of_isUnescaped h
  | _ => exact h

theorem length_rawText (ns : List Node) :
    (rawText ns).length ≤ (writeAll .plain 0 ns).length ∧
      ((writeAll .plain 0 ns).length = (rawText ns).length ↔ ∀ n ∈ ns, n.IsVerbatim) := by
  induction ns with
  | nil => exact ⟨Nat.le_refl _, by simp [rawText, writeAll]⟩
  | cons n ns ih =>
    obtain ⟨hle, hiff⟩ := length_rawText_singleton n
    have hn : (writeAll .plain 0 (n :: ns)).length =
        n.outerHtml.length + (writeAll .plain 0 ns).length :=
      String.length_append _ _
    rw [rawText_cons, String.length_append, hn, List.forall_mem_cons, ← hiff, ← ih.2]
    omega

/-- Nodes are written as their texts exactly if each of them is. -/
theorem rawText_eq_writeAll_iff (ns : List Node) :
    rawText ns = writeAll .plain 0 ns ↔ ∀ n ∈ ns, n.IsVerbatim := by
  refine ⟨fun h => (length_rawText ns).2.mp (congrArg String.length h.symm), fun h => ?_⟩
  induction ns with
  | nil => rfl
  | cons n ns ih =>
    obtain ⟨hn, hns⟩ := List.forall_mem_cons.mp h
    rw [rawText_cons, ih hns, ← outerHtml_of_isVerbatim hn]
    rfl

/-! ### Elements -/

/-- An element that is not a childless void one is written as its start tag, its content and its
end tag. The content is what is written of its children, and in a raw-text element their texts. So
what is written of its children stands between its tags exactly if, in a raw-text element, all of
them are verbatim. -/
theorem outerHtml_element (name : String) (attrs : KeyedList String String) (children : List Node)
    (h : ¬ (isVoid name = true ∧ children = [])) :
    let e := element name attrs children
    e.outerHtml = startTag name attrs ++
        (if isRawText name then rawText children else e.innerHtml) ++ endTag name ∧
      (e.outerHtml = startTag name attrs ++ e.innerHtml ++ endTag name ↔
        (isRawText name = true → ∀ c ∈ children, c.IsVerbatim)) := by
  intro e
  have hv : ¬ (isVoid name && children.isEmpty) = true := by
    rwa [Bool.and_eq_true, List.isEmpty_iff]
  have houter : e.outerHtml = startTag name attrs ++
      (if isRawText name then rawText children else e.innerHtml) ++ endTag name := by
    rw [outerHtml, outer, Markup.write_element_plain, if_neg hv,
      writeAll_of_not_pretty rfl (0 + 1)]
    rfl
  refine ⟨houter, ?_⟩
  rw [houter, String.append_left_inj, String.append_right_inj]
  by_cases hraw : isRawText name = true
  · rw [if_pos hraw, forall_prop_of_true hraw]
    exact rawText_eq_writeAll_iff children
  · rw [if_neg hraw, forall_prop_of_false hraw]
    simp

theorem outerHtml_element_style :
    let e := element "style" [("media", "print")] [text "p > a", comment "x"]
    ¬ (isVoid "style" = true ∧ e.children = []) ∧
      e.outerHtml = startTag "style" [("media", "print")] ++ rawText e.children ++ endTag "style" ∧
      (e.outerHtml = startTag "style" [("media", "print")] ++ e.innerHtml ++ endTag "style" ↔
        (isRawText "style" = true → ∀ c ∈ e.children, c.IsVerbatim)) := by
  intro e
  have h : ¬ (isVoid "style" = true ∧ e.children = []) := by decide
  exact ⟨h, outerHtml_element "style" [("media", "print")] [text "p > a", comment "x"] h⟩

/-- The comparison in a script is written as it stands between the tags, and with an escape
without them. -/
theorem outerHtml_element_script :
    let e := element "script" [] [text "a < b"]
    e.outerHtml = "<script>a < b</script>" ∧ e.innerHtml = "a &lt; b" ∧
      e.outerHtml ≠ startTag "script" [] ++ e.innerHtml ++ endTag "script" := by
  decide

end Node

end MarkupTemplate.Dom
