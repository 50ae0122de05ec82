import Modula.Lexical.Stream

/-!
# Calling for one symbol after the other

A scanner gives out the symbols of a source one by one, comments included, each with the faults
that were found on the way to it. Behind the last symbol it gives out the end of the source, for
ever.
-/

namespace Modula

/-- The symbol that a piece is, if it is one, be it a comment or not. -/
def Chunk.asSymbol? (k : Chunk) : Option Symbol :=
  k.token?.map (⟨·, String.ofList k.text, k.position⟩)

/-- A place in a source from which symbols are read. -/
structure Scanner where
  options : LexicalOptions
  position : Position
  /-- The characters from there on. -/
  rest : List Char

namespace Scanner

/-- The scanner in front of a source. -/
def ofText (o : LexicalOptions) (source : String) : Scanner := ⟨o, .start, source.toList⟩

/-- The scanner behind the first piece of what is in front of it. -/
def skip (s : Scanner) (k : Chunk) : Scanner where
  options := s.options
  position := s.position.after k.extent
  rest := s.rest.drop k.extent.length

/-- The next symbol, with the faults found on the way, and the scanner behind it. -/
def next (s : Scanner) : Scanned × Scanner :=
  match _h : s.rest with
  | [] => (⟨⟨.endOfFile, "", s.position⟩, []⟩, s)
  | c :: rest =>
    let k := Chunk.first s.options s.position c rest
    match k.asSymbol? with
    | some symbol => (⟨symbol, k.reports⟩, s.skip k)
    | none =>
      let (found, behind) := (s.skip k).next
      ({ found with reports := k.reports ++ found.reports }, behind)
termination_by s.rest.length
decreasing_by
  have := List.length_pos_iff.2 (Chunk.first s.options s.position c rest).extent_ne_nil
  simp only [skip, List.length_drop, _h, List.length_cons]
  omega

/-- What a call gives out; calls are counted from 0. -/
def call (s : Scanner) : Nat → Scanned
  | 0 => s.next.1
  | n + 1 => s.next.2.call n

/-- What the first `n` calls give out. -/
def calls (s : Scanner) (n : Nat) : List Scanned := (List.range n).map s.call

end Scanner

end Modula
