import Modula.Diagnostic.Basic
import Modula.Text.Position
import Modula.Token

/-!
# Reading symbols

What the rules for the classes of symbols have in common. Each rule is given the position and the
characters that follow it, and answers how many of these belong together and what is wrong with
them.
-/

namespace Modula

/-- A symbol recognised at the start of a text. -/
structure Reading where
  token : Token
  /-- The number of its characters. -/
  length : Nat
  /-- The faults found in it. -/
  reports : List Diagnostic
  length_pos : 0 < length

/-- Some characters at the start of a text that follow a rule, perhaps none. -/
structure Stretch where
  length : Nat
  reports : List Diagnostic
deriving DecidableEq

/-- A rule for the start of a text that stands at a position. -/
abbrev Rule := Position → List Char → Stretch

namespace Rule

/-- The next `n` characters, whatever they are. -/
def skip (n : Nat) : Rule := fun _ _ => ⟨n, []⟩

/-- One rule, and then another for the characters behind. -/
def andThen (f g : Rule) : Rule := fun p cs =>
  let a := f p cs
  let b := g (p.after (cs.take a.length)) (cs.drop a.length)
  ⟨a.length + b.length, a.reports ++ b.reports⟩

@[simp]
theorem length_skip (n : Nat) (p : Position) (cs : List Char) : (skip n p cs).length = n := rfl

@[simp]
theorem length_andThen (f g : Rule) (p : Position) (cs : List Char) :
    (andThen f g p cs).length =
      (f p cs).length + (g (p.after (cs.take (f p cs).length)) (cs.drop (f p cs).length)).length :=
  rfl

end Rule

end Modula
