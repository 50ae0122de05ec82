import Modula.Lexical.Quoted

/-!
# Quoted literals in two passes

The characters of a literal are read one after the other, except that the two of an escape are read
in one turn. The second of these is neither a quote nor at fault, so the same is read in two passes:
one looks for the closing quote, and one says of each character in front of it what is wrong with
it.
-/

namespace Modula.Quoted

/-- A character that opens a literal, and closes it. -/
def IsQuote (c : Char) : Prop := c = '\x27' ∨ c = '\x22'

/-- What is wrong with a character of a literal, given the characters behind it. -/
def fault? (p : Position) (c : Char) (behind : List Char) : Option Diagnostic :=
  if c = '\\' then
    match behind.head? with
    | some 'n' | some 't' => none
    | next => some { Diagnostic.ofPosition .invalidEscape p with char := next }
  else if isControl c then some { Diagnostic.ofPosition .controlCharacter p with char := c }
  else none

/-- The faults of a literal up to the quote that ends it. -/
def faults (quote : Char) : Position → List Char → List Diagnostic
  | _, [] => []
  | p, c :: cs => if c = quote then [] else (fault? p c cs).toList ++ faults quote (p.next c) cs

/-- What is read of a literal in two passes. -/
def extent (quote : Char) (p : Position) (rest : List Char) : Extent :=
  let body := rest.takeWhile (· != quote)
  if body.length < rest.length then ⟨body.length + 1, true, faults quote p rest⟩
  else ⟨body.length, false, faults quote p rest⟩

/-- The extent of a literal, counted from further in front. -/
def Extent.behind (n : Nat) (found : List Diagnostic) (e : Extent) : Extent :=
  ⟨n + e.length, e.closed, found ++ e.reports⟩

variable {quote c : Char} {p : Position} {cs : List Char}

theorem Extent.behind_behind (n m : Nat) (ds es : List Diagnostic) (e : Extent) :
    (e.behind m es).behind n ds = e.behind (n + m) (ds ++ es) := by
  simp [Extent.behind, Nat.add_assoc]

theorem extent_nil : extent quote p [] = ⟨0, false, []⟩ := rfl

theorem extent_quote : extent quote p (quote :: cs) = ⟨1, true, []⟩ := by
  simp [extent, faults]

theorem extent_cons (h : c ≠ quote) :
    extent quote p (c :: cs) = (extent quote (p.next c) cs).behind 1 (fault? p c cs).toList := by
  have hrun : (c :: cs).takeWhile (· != quote) = c :: cs.takeWhile (· != quote) :=
    List.takeWhile_cons_of_pos (by simpa using h)
  unfold extent
  rw [hrun]
  simp only [faults, if_neg h, List.length_cons, Nat.add_lt_add_iff_right]
  split <;> simp only [Extent.behind, Nat.add_comm]

/-- The letter of an escape is a character of its own that is not at fault. -/
theorem extent_escape {e : Char} (hq : IsQuote quote) (he : e = 'n' ∨ e = 't') :
    extent quote p ('\\' :: e :: cs) =
      (extent quote ((p.next '\\').next e) cs).behind 2 [] := by
  have hbackslash : '\\' ≠ quote := by rcases hq with rfl | rfl <;> decide
  have hletter : e ≠ quote := by rcases hq with rfl | rfl <;> rcases he with rfl | rfl <;> decide
  have hescape : fault? p '\\' (e :: cs) = none := by rcases he with rfl | rfl <;> rfl
  have hplain : fault? (p.next '\\') e cs = none := by rcases he with rfl | rfl <;> rfl
  rw [extent_cons hbackslash, extent_cons hletter, hescape, hplain, Extent.behind_behind]
  rfl

/-- Reading on in a literal is reading in two passes what is left of it. -/
theorem scan_eq (hq : IsQuote quote) (p : Position) (n : Nat) (found : Array Diagnostic)
    (cs : List Char) :
    scan quote p n found cs = (extent quote p cs).behind n found.toList := by
  fun_induction scan quote p n found cs with
  | case1 p n found => simp [extent_nil, Extent.behind]
  | case2 p n found cs => simp [extent_quote, Extent.behind]
  | case3 p n found behind _ ih =>
    rw [ih, extent_escape hq (.inl rfl), Extent.behind_behind, List.append_nil]
  | case4 p n found behind _ ih =>
    rw [ih, extent_escape hq (.inr rfl), Extent.behind_behind, List.append_nil]
  | case5 p n found cs hn ht hc ih =>
    have hfault : fault? p '\\' cs =
        some { Diagnostic.ofPosition .invalidEscape p with char := cs.head? } := by
      rw [fault?, if_pos rfl]
      split
      · next h => exact absurd (List.head?_eq_some_iff.1 h) (not_exists.2 hn)
      · next h => exact absurd (List.head?_eq_some_iff.1 h) (not_exists.2 ht)
      · rfl
    rw [ih, extent_cons hc, hfault, Extent.behind_behind, Array.toList_push, Option.toList_some]
  | case6 p n found c cs hc hbackslash hcontrol ih =>
    have hfault : fault? p c cs =
        some { Diagnostic.ofPosition .controlCharacter p with char := c } := by
      rw [fault?, if_neg hbackslash, if_pos hcontrol]
    rw [ih, extent_cons hc, hfault, Extent.behind_behind, Array.toList_push, Option.toList_some]
  | case7 p n found c cs hc hbackslash hcontrol ih =>
    have hfault : fault? p c cs = none := by
      rw [fault?, if_neg hbackslash, if_neg hcontrol]
    rw [ih, extent_cons hc, hfault, Extent.behind_behind, Option.toList_none, List.append_nil]

/-- A literal has a closing quote, or it is malformed. -/
theorem token_read (p : Position) (quote : Char) (rest : List Char) :
    (read p quote rest).token = .quotedString ∨ (read p quote rest).token = .malformedString := by
  unfold read Extent.reading
  split
  · exact .inl rfl
  · exact .inr rfl

/-- A literal is read alike in two passes. -/
theorem read_eq (hq : IsQuote quote) (p : Position) (rest : List Char) :
    Quoted.read p quote rest = (extent quote (p.next quote) rest).reading p := by
  rw [Quoted.read, scan_eq hq]
  simp [Extent.behind]

/-- A literal with a closing quote. -/
theorem read_eq_closed (hq : IsQuote quote) (p : Position) {rest : List Char}
    (h : (rest.takeWhile (· != quote)).length < rest.length) :
    Quoted.read p quote rest =
      { token := .quotedString
        length := (rest.takeWhile (· != quote)).length + 2
        reports := faults quote (p.next quote) rest
        length_pos := Nat.succ_pos _ } := by
  rw [read_eq hq, extent, if_pos h]
  rfl

/-- A literal without one. -/
theorem read_eq_unclosed (hq : IsQuote quote) (p : Position) {rest : List Char}
    (h : ¬(rest.takeWhile (· != quote)).length < rest.length) :
    Quoted.read p quote rest =
      { token := .malformedString
        length := (rest.takeWhile (· != quote)).length + 1
        reports := faults quote (p.next quote) rest ++ [.ofPosition .unterminatedQuoted p]
        length_pos := Nat.succ_pos _ } := by
  rw [read_eq hq, extent, if_neg h]
  rfl

end Modula.Quoted
