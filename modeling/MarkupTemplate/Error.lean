import MarkupTemplate.Markup.Fault

/-!
# Template errors

Compiling a template fails on its markup or on an unknown component. Rendering it fails on a
reference without a value or in a component.

## Main definitions

* `MarkupTemplate.Error` — the causes, with their wording in `MarkupTemplate.Error.message`.
-/

namespace MarkupTemplate

/-- Why a template cannot be compiled or rendered. -/
inductive Error where
  | parse (error : Markup.ParseError)
  | unresolvedComponent (tag : String)
  /-- A reference to the value `index` among `count` values. -/
  | missingSubstitution (index count : Nat)
  | component (message : String)
  deriving DecidableEq, Repr

/-- The wording of a template error. -/
def Error.message : Error → String
  | .parse error => "Parse error: " ++ error.message
  | .unresolvedComponent tag => "Couldn't find definition for \"" ++ tag ++ "\""
  | .missingSubstitution index count =>
    "Missing substitution " ++ toString index ++ " (only " ++ toString count ++ " provided)"
  | .component message => "Component failed: " ++ message

end MarkupTemplate
