import Modula.Lexical.Reading

/-!
# Numbers

Decimal numbers start with a digit other than 0, or are 0 itself; binary and hexadecimal numbers
start with `0b` and `0x`, character codes with `0u`. Only decimal numbers have a fraction, and
only a fraction has an exponent. The digits of a run may be separated by single apostrophes.

A dot that is followed by a second one starts no fraction. Letters or digits directly behind a
number make all of it malformed.
-/

namespace Modula.Number

/-- The base of a run of digits. -/
inductive Base where
  | binary | decimal | hexadecimal
deriving DecidableEq, Repr

/-- A digit of the base; hexadecimal digits are capitals. -/
def Base.isDigit : Base → Char → Bool
  | binary, c => c = '0' || c = '1'
  | decimal, c => c.isDigit
  | hexadecimal, c => c.isDigit || ('A' ≤ c && c ≤ 'F')

/-- The text starts with a digit of the base. -/
def startsWithDigit (b : Base) : List Char → Bool
  | [] => false
  | c :: _ => b.isDigit c

/-- The extent of a run of digits, counted from `n`, and whether it ends in an apostrophe for want
of another digit. -/
def digitExtent (b : Base) : Nat → List Char → Nat × Bool
  | n, [] => (n, false)
  | n, c :: cs =>
    if b.isDigit c then digitExtent b (n + 1) cs
    else if c = '\x27' then
      if startsWithDigit b cs then digitExtent b (n + 1) cs else (n + 1, true)
    else (n, false)

/-- A run of digits with single apostrophes. -/
def digits (b : Base) : Rule := fun p cs =>
  let (n, lacksDigit) := digitExtent b 0 cs
  ⟨n, if lacksDigit then [.ofPosition .separatorWithoutDigit (p.after (cs.take n))] else []⟩

/-- A run of decimal digits that must not be missing. -/
def someDigits (missing : Code) : Rule := fun p cs =>
  if startsWithDigit .decimal cs then digits .decimal p cs else ⟨0, [.ofPosition missing p]⟩

/-- A sign, if there is one. -/
def sign : Rule := fun p cs =>
  match cs with
  | '+' :: _ | '-' :: _ => Rule.skip 1 p cs
  | _ => Rule.skip 0 p cs

/-- An exponent, if there is one. -/
def exponent : Rule := fun p cs =>
  match cs with
  | 'e' :: _ | 'E' :: _ =>
    ((Rule.skip 1).andThen sign |>.andThen (someDigits .exponentWithoutDigit)) p cs
  | _ => Rule.skip 0 p cs

/-- A fraction from its decimal point on. -/
def fraction : Rule :=
  (Rule.skip 1).andThen (someDigits .pointWithoutDigit) |>.andThen exponent

/-- The text starts with a decimal point and not with two dots. -/
def startsFraction : List Char → Bool
  | '.' :: '.' :: _ => false
  | '.' :: _ => true
  | _ => false

/-- The digits of a number behind `0` and the letter of its base. -/
def based (b : Base) (token : Token) (behind : List Char) : Token × Rule :=
  if startsWithDigit b behind then (token, (Rule.skip 1).andThen (digits b))
  else (.malformedNumber, Rule.skip 1)

/-- What a number that starts with 0 is, given the characters behind the 0, and the rule for
these. -/
def afterZero (rest : List Char) : Token × Rule :=
  match rest with
  | 'b' :: behind => based .binary .wholeNumber behind
  | 'x' :: behind => based .hexadecimal .wholeNumber behind
  | 'u' :: behind => based .hexadecimal .charCode behind
  | c :: _ =>
    if startsFraction rest then (.realNumber, fraction)
    else if c.isAlphanum then (.malformedNumber, Rule.skip 0)
    else (.wholeNumber, Rule.skip 0)
  | [] => (.wholeNumber, Rule.skip 0)

/-- What a number that starts with another digit is, given the characters behind that digit, and
the rule for these. -/
def afterDigit (rest : List Char) : Token × Rule :=
  if startsFraction (rest.drop (digitExtent .decimal 0 rest).1) then
    (.realNumber, (digits .decimal).andThen fraction)
  else (.wholeNumber, digits .decimal)

/-- Reads the number that starts with the digit `c`. -/
def read (p : Position) (c : Char) (rest : List Char) : Reading :=
  let (token, rule) := if c = '0' then afterZero rest else afterDigit rest
  let stretch := rule (p.next c) rest
  let junk := (rest.drop stretch.length).takeWhile Char.isAlphanum
  if token = .malformedNumber ∨ junk ≠ [] then
    let length := 1 + stretch.length + junk.length
    let lexeme := String.ofList ((c :: rest).take length)
    { token := .malformedNumber
      length
      reports :=
        stretch.reports ++ [{ Diagnostic.ofPosition .malformedNumber p with lexeme }]
      length_pos := by omega }
  else
    { token, length := 1 + stretch.length, reports := stretch.reports, length_pos := by omega }

end Modula.Number
