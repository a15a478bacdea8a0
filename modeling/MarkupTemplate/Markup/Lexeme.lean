import MarkupTemplate.Markup.Attribute
import MarkupTemplate.Markup.Extent
import MarkupTemplate.Markup.Token

/-!
# Reading tokens

A token starts with `<`, with `&` or with any other character, which starts a text. A construct
that does not end leaves nothing to read, and one that ends but is not formed is a fault behind
its end. Every token takes at least one character, so a text has finitely many of them.

## Main definitions

* `MarkupTemplate.Markup.readToken` — the token that starts with a given character.
* `MarkupTemplate.Markup.tokens` — all tokens of a text up to the first fault.
* `MarkupTemplate.Markup.Stop.position` — the byte at which a fault stands.
-/

namespace MarkupTemplate.Markup

open Text

/-- A token with what follows it, or a fault. -/
abbrev Reading := Except Stop (Token × List Char)

/-- Reads the content of a construct that runs to `mark`. -/
def readUntil (construct : Construct) (token : List Char → Token) (mark cs : List Char) :
    Reading :=
  match breakOn? mark cs with
  | some (content, rest) => .ok (token content, rest)
  | none => .error ⟨.unclosed construct, []⟩

/-- Reads a comment from the text behind `<!`. -/
def readComment (cs : List Char) : Reading :=
  match dropPrefix? ['-', '-'] cs with
  | some ds => readUntil .comment .comment ['-', '-', '>'] ds
  | none => .error ⟨.unclosed .comment, (after? ['-', '-', '>'] (cs.drop 2)).getD []⟩

/-- Reads a CDATA section from the text behind `<!`. -/
def readCdata (cs : List Char) : Reading :=
  match dropPrefix? "[CDATA[".toList cs with
  | some ds => readUntil .cdata .cdata [']', ']', '>'] ds
  | none => .error ⟨.unclosed .cdata, (after? [']', ']', '>'] cs).getD []⟩

/-- Whether a text begins with the keyword of doctypes, in either case. -/
def isDoctype (cs : List Char) : Bool := (cs.take 7).map Char.toLower == "doctype".toList

/-- Reads a doctype from the text behind `<!`. -/
def readDoctype (cs : List Char) : Reading :=
  match afterDoctype? none cs with
  | none => .error ⟨.unclosed .doctype, []⟩
  | some rest =>
    let body := cs.take (cs.length - rest.length - 1)
    if isDoctype body then
      match (body.drop 7).dropWhile isXmlBlank with
      | [] => .error ⟨.namelessDoctype, rest⟩
      | content => .ok (.doctype content, rest)
    else .error ⟨.unclosed .doctype, rest⟩

/-- Whether an instruction is a declaration of the language itself. -/
def isDeclaration (content : List Char) : Bool :=
  match dropPrefix? ['x', 'm', 'l'] content with
  | some [] => true
  | some (c :: _) => isXmlBlank c
  | none => false

/-- Whether a text looks like the start of a declaration, if it is not closed. -/
def startsDeclaration (cs : List Char) : Bool :=
  isDeclaration cs || (dropPrefix? ['x', 'm', 'l', '?'] cs).isSome

/-- Reads an instruction from the text behind `<`, which begins with a question mark. -/
def readInstruction (cs : List Char) : Reading :=
  match breakOn? ['?', '>'] cs with
  | some (_ :: content, rest) =>
    if isDeclaration content then .ok (.declaration content, rest)
    else .ok (.instruction content, rest)
  | some ([], rest) => .error ⟨.unclosed .instruction, rest⟩
  | none =>
    if startsDeclaration (cs.drop 1) then .error ⟨.unclosed .declaration, []⟩
    else .error ⟨.unclosed .instruction, []⟩

/-- The name in an end tag. A name that is all blank stays as it is. -/
def endName (content : List Char) : List Char :=
  match dropWhileEnd isXmlBlank content with
  | [] => content
  | name => name

/-- Reads an end tag from the text behind `</`. -/
def readEndTag (cs : List Char) : Reading :=
  match spanTag none cs with
  | .error fault => .error ⟨fault, []⟩
  | .ok (content, rest) => .ok (.endTag (endName content), rest)

/-- The name and the attributes in a start tag. -/
def readContent (content : List Char) : Except Fault (List Char × List (List Char × List Char)) :=
  (readAttributes (utf8Length content) (content.dropWhile (! isXmlBlank ·))).map
    fun attrs => (content.takeWhile (! isXmlBlank ·), attrs)

/-- Reads a start tag from the text behind `<`. -/
def readStartTag (cs : List Char) : Reading :=
  match spanTag none cs with
  | .error fault => .error ⟨fault, []⟩
  | .ok (content, rest) =>
    if content.getLast? = some '/' then
      match readContent content.dropLast with
      | .error fault => .error ⟨fault, rest⟩
      | .ok (name, attrs) => .ok (.emptyTag name attrs, rest)
    else
      match readContent content with
      | .error fault => .error ⟨fault, rest⟩
      | .ok (name, attrs) => .ok (.startTag name attrs, rest)

/-- Reads what follows `<!`, of which `whole` is the text from the `<` on. -/
def readBang (whole : List Char) : List Char → Reading
  | '[' :: cs => readCdata ('[' :: cs)
  | '-' :: cs => readComment ('-' :: cs)
  | 'D' :: cs => readDoctype ('D' :: cs)
  | 'd' :: cs => readDoctype ('d' :: cs)
  | _ => .error ⟨.unknownMarkup, whole⟩

/-- Reads what follows `<`. -/
def readMarkup : List Char → Reading
  | [] => .error ⟨.unclosed .tag, ['<']⟩
  | '!' :: cs => readBang ('<' :: '!' :: cs) cs
  | '?' :: cs => readInstruction ('?' :: cs)
  | '/' :: cs => readEndTag cs
  | cs => readStartTag cs

/-- The characters that may stand in a reference in text. -/
def isTextReference (c : Char) : Bool := c != '&' && c != ';' && c != '<'

/-- Reads what follows `&`. -/
def readReference (cs : List Char) : Reading :=
  match splitReference? isTextReference cs with
  | some (body, rest) => .ok (.reference body, rest)
  | none => .error ⟨.unclosedReference, cs.dropWhile isTextReference⟩

/-- The characters that go on a text. -/
def isText (c : Char) : Bool := c != '<' && c != '&'

/-- The token that starts with the character `c`. -/
def readToken (c : Char) (cs : List Char) : Reading :=
  if c = '<' then readMarkup cs
  else if c = '&' then readReference cs
  else .ok (.text (c :: cs.takeWhile isText), cs.dropWhile isText)

/-! ### Tokens end -/

section Length

variable {cs rest : List Char} {t : Token}

private theorem length_le_of_readUntil {construct : Construct} {token : List Char → Token}
    {mark : List Char} (h : readUntil construct token mark cs = .ok (t, rest)) :
    rest.length ≤ cs.length := by
  rw [readUntil] at h
  split at h
  · rename_i content r hb
    cases h
    simp only [eq_of_breakOn?_eq_some hb, List.length_append]
    omega
  · cases h

private theorem length_le_of_readComment (h : readComment cs = .ok (t, rest)) :
    rest.length ≤ cs.length := by
  rw [readComment] at h
  split at h
  · rename_i ds hd
    exact Nat.le_trans (length_le_of_readUntil h) (length_le_of_dropPrefix? hd)
  · cases h

private theorem length_le_of_readCdata (h : readCdata cs = .ok (t, rest)) :
    rest.length ≤ cs.length := by
  rw [readCdata] at h
  split at h
  · rename_i ds hd
    exact Nat.le_trans (length_le_of_readUntil h) (length_le_of_dropPrefix? hd)
  · cases h

private theorem length_le_of_readDoctype (h : readDoctype cs = .ok (t, rest)) :
    rest.length ≤ cs.length := by
  rw [readDoctype] at h
  split at h
  · cases h
  · rename_i r hr
    have := length_le_of_afterDoctype? hr
    dsimp only at h
    split at h
    · split at h <;> cases h
      exact this
    · cases h

private theorem length_le_of_readInstruction (h : readInstruction cs = .ok (t, rest)) :
    rest.length ≤ cs.length := by
  rw [readInstruction] at h
  split at h
  · rename_i c content r hb
    have : r.length ≤ cs.length := by
      simp only [eq_of_breakOn?_eq_some hb, List.length_append]
      omega
    split at h <;> cases h <;> exact this
  · cases h
  · split at h <;> cases h

private theorem length_le_of_spanTag {content : List Char}
    (h : spanTag none cs = .ok (content, rest)) : rest.length ≤ cs.length := by
  simp only [eq_of_spanTag_eq_ok h, List.length_append, List.length_cons]
  omega

private theorem length_le_of_readEndTag (h : readEndTag cs = .ok (t, rest)) :
    rest.length ≤ cs.length := by
  rw [readEndTag] at h
  split at h
  · cases h
  · rename_i content r hs
    cases h
    exact length_le_of_spanTag hs

private theorem length_le_of_readStartTag (h : readStartTag cs = .ok (t, rest)) :
    rest.length ≤ cs.length := by
  rw [readStartTag] at h
  split at h
  · cases h
  · rename_i content r hs
    have := length_le_of_spanTag hs
    split at h <;> split at h <;> cases h <;> exact this

private theorem length_le_of_readMarkup (h : readMarkup cs = .ok (t, rest)) :
    rest.length ≤ cs.length := by
  rw [readMarkup.eq_def] at h
  split at h
  · cases h
  · rename_i ds
    rw [readBang.eq_def] at h
    rw [List.length_cons]
    split at h
    · have := length_le_of_readCdata h
      omega
    · have := length_le_of_readComment h
      omega
    · have := length_le_of_readDoctype h
      omega
    · have := length_le_of_readDoctype h
      omega
    · cases h
  · exact length_le_of_readInstruction h
  · have := length_le_of_readEndTag h
    rw [List.length_cons]
    omega
  · exact length_le_of_readStartTag h

/-- What follows a token is no longer than what follows its first character. -/
theorem length_le_of_readToken {c : Char} (h : readToken c cs = .ok (t, rest)) :
    rest.length ≤ cs.length := by
  rw [readToken] at h
  split at h
  · exact length_le_of_readMarkup h
  · split at h
    · rw [readReference] at h
      split at h
      · rename_i body r hr
        cases h
        simp only [eq_of_splitReference?_eq_some hr, List.length_append, List.length_cons]
        omega
      · cases h
    · cases h
      exact length_dropWhile_le isText cs

end Length

/-! ### The stream -/

/-- The tokens of a text, and the fault that ends them if there is one. -/
def tokens : List Char → List Token × Option Stop
  | [] => ([], none)
  | c :: cs =>
    match _h : readToken c cs with
    | .error stop => ([], some stop)
    | .ok (token, rest) =>
      let (ts, stop?) := tokens rest
      (token :: ts, stop?)
termination_by cs => cs.length
decreasing_by
  have := length_le_of_readToken _h
  rw [List.length_cons]
  omega

/-- The byte of `whole` at which a fault stands. -/
def Stop.position (whole : List Char) (stop : Stop) : Nat :=
  utf8Length whole - utf8Length stop.rest

end MarkupTemplate.Markup
