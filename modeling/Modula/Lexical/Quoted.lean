import Modula.Lexical.Reading

/-!
# Quoted literals

A literal goes from a quote of either form to the next quote of the same form, across lines if need
be. A backslash does not protect a quote. The only escapes are `\n` and `\t`; other backslashes and
control characters are faults of the literal and belong to it all the same.
-/

namespace Modula.Quoted

/-- A control character. -/
def isControl (c : Char) : Bool := c.toNat ≤ 0x1F || c.toNat = 0x7F

/-- How far a literal goes behind its opening quote. -/
structure Extent where
  /-- The number of characters, the closing quote included. -/
  length : Nat
  /-- The literal has a closing quote. -/
  closed : Bool
  /-- The faults found on the way. -/
  reports : List Diagnostic
deriving DecidableEq

/-- Reads on in a literal, of which `n` characters have been read behind the opening quote and
`found` is what was wrong with these. The next character stands at `p`. -/
def scan (quote : Char) (p : Position) (n : Nat) (found : Array Diagnostic) : List Char → Extent
  | [] => ⟨n, false, found.toList⟩
  | c :: cs =>
    if c = quote then ⟨n + 1, true, found.toList⟩
    else if c = '\\' then
      match cs with
      | 'n' :: behind => scan quote ((p.next '\\').next 'n') (n + 2) found behind
      | 't' :: behind => scan quote ((p.next '\\').next 't') (n + 2) found behind
      | behind =>
        -- the character behind is reported, and read in the next turn
        scan quote (p.next '\\') (n + 1)
          (found.push { Diagnostic.ofPosition .invalidEscape p with char := behind.head? }) behind
    else if isControl c then
      scan quote (p.next c) (n + 1)
        (found.push { Diagnostic.ofPosition .controlCharacter p with char := c }) cs
    else scan quote (p.next c) (n + 1) found cs

/-- The literal that goes so far and whose opening quote stands at a position. -/
def Extent.reading (p : Position) (e : Extent) : Reading :=
  if e.closed then
    { token := .quotedString, length := e.length + 1, reports := e.reports
      length_pos := Nat.succ_pos _ }
  else
    { token := .malformedString
      length := e.length + 1
      reports := e.reports ++ [.ofPosition .unterminatedQuoted p]
      length_pos := Nat.succ_pos _ }

/-- Reads the literal that starts with a quote. -/
def read (p : Position) (quote : Char) (rest : List Char) : Reading :=
  (scan quote (p.next quote) 0 #[] rest).reading p

end Modula.Quoted
