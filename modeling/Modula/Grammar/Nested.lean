import Modula.Grammar.Parser

/-!
# Nested constructs

The rules of the grammar call each other in circles. Each circle passes through one of five
constructs, and going into one of these is what the limit on nesting counts. A rule that may lead
into such a construct is given a way to call it, so that no rule needs to know how deep it stands.
-/

namespace Modula

/-- The constructs whose nesting is counted. -/
inductive Nested where
  | expression | statement | type | procedure | variantFields
deriving DecidableEq, Repr

/-- How a rule calls the nested constructs. -/
abbrev Call := Nested → Parser Node

end Modula
