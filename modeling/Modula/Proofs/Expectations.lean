import Modula.Proofs.AccurateRules

/-!
# What is expected and what is found

Where a symbol is reported as unexpected, the report says what was expected instead. Most reports
name what the rule has just looked for in vain, so that the symbol that was found is not among it.
One report does not: in place of an operand, everything is said to be expected that starts an
expression, and a sign or `NOT`, which starts an expression but no operand, is then said to be found
where it is expected.
-/

namespace Modula

open Modula.Parser Modula.Grammar

/-- Of what was expected the found token is a member only if it is an operator in place of an
operand. -/
def Diagnostic.NamesOther (d : Diagnostic) : Prop :=
  ∃ e t, d.expected = some e ∧ d.found = some t ∧
    (e.admits t = true ↔ e = .set expressionStart ∧ t ∈ tokens [.plus, .minus, .kwNot])

/-- The lexeme is not the name that was expected. -/
def Diagnostic.Misnames (d : Diagnostic) : Prop :=
  ∃ name lexeme, d.expected = some (.name name) ∧ d.lexeme = some lexeme ∧ lexeme ≠ name

/-- A sign and `NOT` start an expression. -/
theorem admits_of_operator {t : Token} (h : t ∈ tokens [.plus, .minus, .kwNot]) :
    (Expected.set expressionStart).admits t = true := by
  refine admits_set.2 ?_
  revert h
  cases t <;> decide

theorem namesOther_surprise {p : Progress} {e : Expected}
    (h : e.admits p.lookahead.token = true → e = .set expressionStart ∧
      p.lookahead.token ∈ tokens [.plus, .minus, .kwNot]) : (surprise p e).NamesOther := by
  refine ⟨e, p.lookahead.token, rfl, rfl, h, ?_⟩
  rintro ⟨rfl, hoperator⟩
  exact admits_of_operator hoperator

/-- Nothing else than a unit starts like a unit. -/
theorem namesOther_invalidStart {kind : UnitKind} {s : Symbol} (h : s.token ∉ startOf kind) :
    { faultBy .invalidStart s with expected := Expected.set (startOf kind) }.NamesOther := by
  have hne : Expected.set (startOf kind) ≠ .set expressionStart := by cases kind <;> decide
  exact ⟨_, _, rfl, rfl, fun hadmits => absurd (admits_set.1 hadmits) h, fun hset => absurd hset.1 hne⟩

/-- What is said to be expected is not what was found, unless an operator was found in place of an
operand. A closing identifier is reported only if it is not the name that was expected. -/
theorem expected_not_found (o : ParseOptions) (kind : UnitKind) (text : String) :
    ∀ d ∈ parseReports o kind text,
      (d.code = .unexpectedSymbol ∨ d.code = .invalidStart → d.NamesOther) ∧
      (d.code = .closingMismatch → d.Misnames) := by
  refine parseReports_induction o kind text ?_ ?_ ?_ ?_ ?_
  · intro d hlexical
    have hne : d.code ≠ .unexpectedSymbol ∧ d.code ≠ .invalidStart ∧ d.code ≠ .closingMismatch := by
      unfold Diagnostic.phase at hlexical
      revert hlexical
      cases d.code <;> decide
    exact ⟨fun h => h.elim (absurd · hne.1) (absurd · hne.2.1), fun h => absurd h hne.2.2⟩
  · intro p d hd
    cases hd with
    | surprise e h => exact ⟨fun _ => namesOther_surprise h, nofun⟩
    | missing c h => rcases h with rfl | rfl <;> exact ⟨nofun, nofun⟩
    | isOpaque => exact ⟨nofun, nofun⟩
    | closing opening _ hne => exact ⟨nofun, fun _ => ⟨_, _, rfl, rfl, hne.symm⟩⟩
  · exact fun p _ => ⟨nofun, nofun⟩
  · exact fun s => ⟨nofun, nofun⟩
  · exact fun s hs => ⟨fun _ => namesOther_invalidStart hs, nofun⟩

/-- A missing expression and a closing identifier of another module. -/
theorem expected_not_found_closing :
    (∃ d ∈ parseReports {} .any "MODULE m; BEGIN x := END n.",
      d.code = .unexpectedSymbol ∧ d.NamesOther) ∧
    ∃ d ∈ parseReports {} .any "MODULE m; BEGIN x := END n.",
      d.code = .closingMismatch ∧ d.Misnames := by
  have h := expected_not_found {} .any "MODULE m; BEGIN x := END n."
  have hreported (c : Code) (hc : (parseReports {} .any "MODULE m; BEGIN x := END n.").any
      (·.code = c) = true) :
      ∃ d ∈ parseReports {} .any "MODULE m; BEGIN x := END n.", d.code = c := by
    simpa only [List.any_eq_true, decide_eq_true_eq] using hc
  obtain ⟨d, hd, hunexpected⟩ := hreported .unexpectedSymbol (by decide +kernel)
  obtain ⟨e, he, hmismatch⟩ := hreported .closingMismatch (by decide +kernel)
  exact ⟨⟨d, hd, hunexpected, (h d hd).1 (.inl hunexpected)⟩, e, he, hmismatch,
    (h e he).2 hmismatch⟩

/-- Of a second `NOT` it is said that `NOT` was expected. -/
theorem not_expected_and_found :
    ∃ d ∈ parseReports {} .any "MODULE m; BEGIN x := NOT NOT y END m.",
      d.code = .unexpectedSymbol ∧ d.found = some .kwNot ∧
        ∃ e, d.expected = some e ∧ e.admits .kwNot = true := by
  refine ⟨{ faultAt .unexpectedSymbol ⟨.kwNot, "NOT", ⟨25, 1, 26⟩⟩ with
    found := some .kwNot, expected := some (.set expressionStart) }, ?_, rfl, rfl, _, rfl, ?_⟩
  · decide +kernel
  · decide +kernel

end Modula
