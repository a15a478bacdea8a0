import MarkupTemplate.Markup.Fault
import MarkupTemplate.Text.Split

/-!
# The extent of tags and doctypes

A tag runs to the first `>` outside quotes. So does a doctype, unless an internal subset in square
brackets comes first. In the subset declarations, comments and instructions are skipped whole, so
a bracket in one of them does not end it, and behind the subset the next `>` closes the doctype.

## Main definitions

* `MarkupTemplate.Markup.spanTag` — the content of a tag and what follows it.
* `MarkupTemplate.Markup.afterDoctype?` — what follows a doctype.
-/

namespace MarkupTemplate.Markup

open Text

/-- The text up to the first `>` outside quotes and what follows it, from within a quoted part
if `open?` is a quote. -/
def spanTag (open? : Option Quote) : List Char → Except Fault (List Char × List Char)
  | [] =>
    match open? with
    | none => .error (.unclosed .tag)
    | some quote => .error (.unclosedValue quote)
  | c :: cs =>
    match open? with
    | none =>
      if c = '>' then .ok ([], cs)
      else (spanTag (Quote.ofChar? c) cs).map fun (content, rest) => (c :: content, rest)
    | some quote =>
      (spanTag (if c = quote.char then none else some quote) cs).map
        fun (content, rest) => (c :: content, rest)

/-- A tag loses no character but its `>`. -/
theorem eq_of_spanTag_eq_ok {open? : Option Quote} {cs content rest : List Char}
    (h : spanTag open? cs = .ok (content, rest)) : cs = content ++ '>' :: rest := by
  induction cs generalizing open? content with
  | nil => cases open? <;> simp [spanTag] at h
  | cons c cs ih =>
    have step {o : Option Quote}
        (h : (spanTag o cs).map (fun p => (c :: p.1, p.2)) = .ok (content, rest)) :
        c :: cs = content ++ '>' :: rest := by
      cases hs : spanTag o cs with
      | error fault => rw [hs] at h; cases h
      | ok p =>
        rw [hs] at h
        cases h
        rw [ih hs]
        rfl
    cases open? with
    | none =>
      rw [spanTag] at h
      split at h
      · rename_i hc
        cases h
        simp [hc]
      · exact step h
    | some quote => exact step h

/-- What follows the first `>` outside quotes. -/
def afterTag? (cs : List Char) : Option (List Char) :=
  match spanTag none cs with
  | .ok (_, rest) => some rest
  | .error _ => none

/-- What follows a piece of an internal subset, from the text behind its `<`. In declarations of
entities, attributes and notations a `>` may stand in quotes. -/
def afterDeclaration? (cs : List Char) : Option (List Char) :=
  if let some ds := dropPrefix? ['?'] cs then after? ['?', '>'] ds
  else if let some ds := dropPrefix? ['!', '-', '-'] cs then after? ['-', '-', '>'] ds
  else if let some ds := dropPrefix? "!ENTITY".toList cs then afterTag? ds
  else if let some ds := dropPrefix? "!ATTLIST".toList cs then afterTag? ds
  else if let some ds := dropPrefix? "!NOTATION".toList cs then afterTag? ds
  else after? ['>'] cs

private theorem length_le_of_afterTag? {cs rest : List Char} (h : afterTag? cs = some rest) :
    rest.length ≤ cs.length := by
  rw [afterTag?] at h
  split at h
  · rename_i content r hs
    cases h
    simp only [eq_of_spanTag_eq_ok hs, List.length_append, List.length_cons]
    omega
  · cases h

theorem length_le_of_afterDeclaration? {cs rest : List Char}
    (h : afterDeclaration? cs = some rest) : rest.length ≤ cs.length := by
  have mark {start m ds : List Char} (hp : dropPrefix? start cs = some ds)
      (h : after? m ds = some rest) : rest.length ≤ cs.length :=
    Nat.le_trans (length_le_of_after? h) (length_le_of_dropPrefix? hp)
  have tag {start ds : List Char} (hp : dropPrefix? start cs = some ds)
      (h : afterTag? ds = some rest) : rest.length ≤ cs.length :=
    Nat.le_trans (length_le_of_afterTag? h) (length_le_of_dropPrefix? hp)
  rw [afterDeclaration?] at h
  repeat' split at h
  · exact mark ‹_› h
  · exact mark ‹_› h
  · exact tag ‹_› h
  · exact tag ‹_› h
  · exact tag ‹_› h
  · exact length_le_of_after? h

/-- What follows a doctype, from within its internal subset. -/
def afterSubset? : List Char → Option (List Char)
  | [] => none
  | c :: cs =>
    if c = ']' then after? ['>'] cs
    else if c = '<' then
      match _h : afterDeclaration? cs with
      | some rest => afterSubset? rest
      | none => none
    else afterSubset? cs
termination_by cs => cs.length
decreasing_by
  · have := length_le_of_afterDeclaration? _h
    rw [List.length_cons]
    omega
  · simp

/-- What follows a doctype, from within a quoted part if `open?` is a quote. -/
def afterDoctype? (open? : Option Quote) : List Char → Option (List Char)
  | [] => none
  | c :: cs =>
    match open? with
    | none =>
      if c = '>' then some cs
      else if c = '[' then afterSubset? cs
      else afterDoctype? (Quote.ofChar? c) cs
    | some quote => afterDoctype? (if c = quote.char then none else some quote) cs

private theorem length_le_of_afterSubset? {cs rest : List Char} (h : afterSubset? cs = some rest) :
    rest.length ≤ cs.length := by
  fun_induction afterSubset? cs with
  | case1 => cases h
  | case2 cs =>
    have := length_le_of_after? h
    rw [List.length_cons]
    omega
  | case3 cs ds hd _ ih =>
    have h₁ := ih h
    have h₂ := length_le_of_afterDeclaration? hd
    rw [List.length_cons]
    omega
  | case4 => cases h
  | case5 c cs _ _ ih =>
    have := ih h
    rw [List.length_cons]
    omega

theorem length_le_of_afterDoctype? {open? : Option Quote} {cs rest : List Char}
    (h : afterDoctype? open? cs = some rest) : rest.length ≤ cs.length := by
  induction cs generalizing open? with
  | nil => cases h
  | cons c cs ih =>
    rw [List.length_cons]
    cases open? with
    | none =>
      rw [afterDoctype?] at h
      split at h
      · cases h
        omega
      · split at h
        · have := length_le_of_afterSubset? h
          omega
        · have := ih h
          omega
    | some quote =>
      have := ih h
      omega

end MarkupTemplate.Markup
