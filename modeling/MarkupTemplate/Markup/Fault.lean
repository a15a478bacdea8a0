import MarkupTemplate.Text.Numeral

/-!
# Faults of markup

The ways in which a text is no markup: a construct that is not closed, an attribute that is not
formed, a reference that does not resolve, and tags that do not nest. Each is a cause of its own,
with its wording in one place.

## Main definitions

* `MarkupTemplate.Markup.Fault` — what is wrong with one piece of markup.
* `MarkupTemplate.Markup.ParseError` — why a text is not a forest of nodes.
-/

namespace MarkupTemplate.Markup

/-- The pieces of markup that run to a closing mark. -/
inductive Construct where
  | tag
  | comment
  | cdata
  | doctype
  | instruction
  | declaration
  deriving DecidableEq, Repr

/-- The name of a construct in messages. -/
def Construct.name : Construct → String
  | .tag => "tag"
  | .comment => "comment"
  | .cdata => "CDATA"
  | .doctype => "DOCTYPE"
  | .instruction => "processing instruction"
  | .declaration => "XML declaration"

/-- The mark that closes a construct. -/
def Construct.close : Construct → String
  | .tag | .doctype => ">"
  | .comment => "-->"
  | .cdata => "]]>"
  | .instruction | .declaration => "?>"

/-- The quotes around attribute values. -/
inductive Quote where
  | single
  | double
  deriving DecidableEq, Repr

/-- The character of a quote. -/
def Quote.char : Quote → Char
  | .single => '\''
  | .double => '"'

/-- The quote that a character is. -/
def Quote.ofChar? (c : Char) : Option Quote :=
  if c = '\'' then some .single else if c = '"' then some .double else none

/-- Why an attribute is not formed. Offsets count from the byte after the `<` of the tag. -/
inductive AttributeFault where
  | missingEquals (offset : Nat)
  | missingValue (offset : Nat)
  | unquotedValue (offset : Nat)
  | unclosedValue (offset : Nat) (quote : Quote)
  | duplicate (offset previous : Nat)
  deriving DecidableEq, Repr

/-- The wording of an attribute fault. -/
def AttributeFault.message : AttributeFault → String
  | .missingEquals offset =>
    "position " ++ toString offset ++ ": attribute key must be directly followed by `=` or space"
  | .missingValue offset =>
    "position " ++ toString offset ++ ": `=` must be followed by an attribute value"
  | .unquotedValue offset =>
    "position " ++ toString offset ++ ": attribute value must be enclosed in `\"` or `'`"
  | .unclosedValue offset quote =>
    "position " ++ toString offset ++ ": missing closing quote `" ++ String.singleton quote.char
      ++ "` in attribute value"
  | .duplicate offset previous =>
    "position " ++ toString offset ++ ": duplicated attribute, previous declaration at position "
      ++ toString previous

/-- Why a number names no character in an attribute value. -/
inductive CharacterFault where
  | signed
  | numeral (fault : Text.Numeral.Fault)
  | null
  | notScalar (code : Nat)
  deriving DecidableEq, Repr

/-- The wording of a character fault. -/
def CharacterFault.message : CharacterFault → String
  | .signed => "unexpected number sign"
  | .numeral fault => fault.message
  | .null => "0x0 character is not permitted in XML"
  | .notScalar code => "`" ++ toString code ++ "` is not a valid codepoint"

/-- Why a reference in an attribute value does not resolve. Offsets count from the first byte of
the value. -/
inductive ReferenceFault where
  /-- The `&` at `start` has no `;`; the value ends at `stop`. -/
  | unterminated (start stop : Nat)
  | unknown (start stop : Nat) (name : String)
  | character (fault : CharacterFault)
  deriving DecidableEq, Repr

/-- The wording of a reference fault. -/
def ReferenceFault.message : ReferenceFault → String
  | .unterminated start stop =>
    "Error while escaping character at range " ++ toString start ++ ".." ++ toString stop
      ++ ": Cannot find ';' after '&'"
  | .unknown start stop name =>
    "at " ++ toString start ++ ".." ++ toString stop ++ ": unrecognized entity `" ++ name ++ "`"
  | .character fault => "invalid character reference: " ++ fault.message

/-- What is wrong with one piece of markup. -/
inductive Fault where
  | unclosed (construct : Construct)
  | unclosedValue (quote : Quote)
  | unclosedReference
  | unknownMarkup
  | namelessDoctype
  | attribute (fault : AttributeFault)
  | reference (fault : ReferenceFault)
  deriving DecidableEq, Repr

/-- The wording of a fault. -/
def Fault.message : Fault → String
  | .unclosed construct =>
    "syntax error: " ++ construct.name ++ " not closed: `" ++ construct.close
      ++ "` not found before end of input"
  | .unclosedValue quote =>
    "syntax error: attribute value not closed: `" ++ String.singleton quote.char
      ++ "` not found before end of input"
  | .unclosedReference =>
    "ill-formed document: entity or character reference not closed: `;` not found before end of "
      ++ "input"
  | .unknownMarkup => "syntax error: unknown or missed symbol in markup"
  | .namelessDoctype =>
    "ill-formed document: `<!DOCTYPE>` declaration does not contain a name of a document type"
  | .attribute fault => fault.message
  | .reference fault => fault.message

/-- Why a text is not a forest of nodes. -/
inductive ParseError where
  /-- A fault at a byte of the text. -/
  | malformed (position : Nat) (fault : Fault)
  | mismatchedEndTag (expected found : String)
  | unexpectedEndTag (tag : String)
  | unclosedTag (tag : String)
  deriving DecidableEq, Repr

/-- The wording of a parse error. -/
def ParseError.message : ParseError → String
  | .malformed position fault =>
    "Unexpected token at byte " ++ toString position ++ ": " ++ fault.message
  | .mismatchedEndTag expected found =>
    "Mismatched end tag: expected </" ++ expected ++ ">, found </" ++ found ++ ">"
  | .unexpectedEndTag tag => "Unexpected end tag: </" ++ tag ++ ">"
  | .unclosedTag tag => "Unclosed tag: <" ++ tag ++ ">"

end MarkupTemplate.Markup
