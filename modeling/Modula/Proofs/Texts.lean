import Modula.Proofs.Stream
import Modula.Proofs.StringTables

/-!
# The texts of symbols

A source is read together with a table of its lexemes. The text of a symbol is found in the table,
where the token does not settle it, and is the spelling of the token otherwise. The table holds
every lexeme that was added to it, and gives back for a handle the string it was given out for.
-/

namespace Modula

namespace Interner

/-- The text of a symbol whose lexeme is in the table. -/
def textOf (table : Interner) (s : Symbol) : String :=
  match table.handleOf? s with
  | some h => table.lookup h
  | none => s.token.spelling?.getD ""

end Interner

/-- The text of a symbol of the source. -/
def Tokenized.text (t : Tokenized) (s : Symbol) : String := t.table.textOf s

section

variable {o : LexicalOptions} {source : String} {s : Symbol}

theorem inverse_table_tokenize (o : LexicalOptions) (source : String) :
    (tokenize o source).table.Inverse := Interner.inverse_new.internAll _

/-- The table holds the lexemes of the source: each has a handle that stands for it. -/
theorem lookup_handleOf? (hs : s ∈ (tokenize o source).symbols) (ht : s.token.hasLexeme = true) :
    ((tokenize o source).table.handleOf? s).map (tokenize o source).table.lookup =
      some s.text := by
  have hlex : s.lexeme? = some s.text := if_pos ht
  have hmem : s.text ∈ (tokenize o source).table.strings :=
    Interner.inverse_new.mem_strings_internAll.2 (.inr (List.mem_filterMap.2 ⟨s, hs, hlex⟩))
  rw [Interner.handleOf?, hlex]
  exact (inverse_table_tokenize o source).lookup_get?_of_mem hmem

theorem text_of_hasLexeme (hs : s ∈ (tokenize o source).symbols)
    (ht : s.token.hasLexeme = true) : (tokenize o source).text s = s.text := by
  obtain ⟨h, hh, htext⟩ := Option.map_eq_some_iff.1 (lookup_handleOf? hs ht)
  rw [Tokenized.text, Interner.textOf, hh]
  exact htext

theorem text_of_not_hasLexeme (ht : s.token.hasLexeme = false) (t : Tokenized) :
    t.text s = s.token.spelling?.getD "" := by
  have hlex : s.lexeme? = none := by rw [Symbol.lexeme?, ht]; rfl
  rw [Tokenized.text, Interner.textOf, Interner.handleOf?, hlex]
  rfl

end

end Modula
