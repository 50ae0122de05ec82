import Modula.Parse

/-!
# Running a rule

A rule is a function of the progress of a unit. This module says what each operation of the rules
does when it is run, so that no later proof has to open the monad. A rule that is put together from
two others runs the first one and then, unless it failed, the second.
-/

namespace Modula.Parser

variable {α β : Type}

/-- What the rule answers when reading goes on from `p`, and how far it gets. -/
def exec (m : Parser α) (p : Progress) : Except Stop α × Progress := m.run p

/-- Goes on with the answer of a rule, or stops where the rule failed. -/
def proceed (k : α → Parser β) : Except Stop α × Progress → Except Stop β × Progress
  | (.ok a, q) => (k a).exec q
  | (.error f, q) => (.error f, q)

@[simp]
theorem proceed_ok (k : α → Parser β) (a : α) (q : Progress) :
    proceed k (.ok a, q) = (k a).exec q := rfl

@[simp]
theorem proceed_error (k : α → Parser β) (f : Stop) (q : Progress) :
    proceed k (.error f, q) = (.error f, q) := rfl

@[simp]
theorem exec_pure (a : α) (p : Progress) : (pure a : Parser α).exec p = (.ok a, p) := rfl

theorem exec_bind (m : Parser α) (k : α → Parser β) (p : Progress) :
    (m >>= k).exec p = proceed k (m.exec p) := by
  change (ExceptT.bind m k).run p = _
  simp only [ExceptT.bind, ExceptT.run, ExceptT.mk, exec]
  change ExceptT.bindCont k (m p).1 (m p).2 = _
  rcases h : m p with ⟨r, q⟩
  cases r <;> rfl

@[simp]
theorem exec_throw (f : Stop) (p : Progress) :
    (throw f : Parser α).exec p = (.error f, p) := rfl

@[simp]
theorem exec_lookahead (p : Progress) : lookahead.exec p = (.ok p.lookahead, p) := rfl

@[simp]
theorem exec_token (p : Progress) : token.exec p = (.ok p.lookahead.token, p) := rfl

@[simp]
theorem exec_next (p : Progress) : next.exec p = (.ok p.lookahead, p.advance) := rfl

@[simp]
theorem exec_advance (p : Progress) : advance.exec p = (.ok (), p.advance) := rfl

@[simp]
theorem exec_skipTo (s : TokenSet) (p : Progress) :
    (skipTo s).exec p = (.ok (), p.skipTo s) := rfl

@[simp]
theorem exec_report (d : Diagnostic) (p : Progress) :
    (report d).exec p = (.ok (), p.report d) := rfl

@[simp]
theorem exec_count (f : Statistics → Statistics) (p : Progress) :
    (count f).exec p = (.ok (), p.count f) := rfl

@[simp]
theorem exec_leaf (k : Kind) (p : Progress) :
    (leaf k).exec p = (.ok (.leaf k p.lookahead), p.advance) := rfl

theorem exec_ifAt (t : Token) (yes no : Parser α) (p : Progress) :
    (ifAt t yes no).exec p = if p.lookahead.token = t then yes.exec p else no.exec p := by
  rw [ifAt, exec_bind, exec_token, proceed_ok]
  split <;> rfl

theorem exec_ifAtAny (s : TokenSet) (yes no : Parser α) (p : Progress) :
    (ifAtAny s yes no).exec p =
      if s.contains p.lookahead.token then yes.exec p else no.exec p := by
  rw [ifAtAny, exec_bind, exec_token, proceed_ok]
  split <;> rfl

/-- What comes behind a choice comes behind either of its rules. -/
theorem ifAt_bind (t : Token) (yes no : Parser α) (k : α → Parser β) :
    ifAt t yes no >>= k = ifAt t (yes >>= k) (no >>= k) := by
  unfold ifAt
  rw [bind_assoc]
  congr 1
  funext u
  split <;> rfl

theorem ifAtAny_bind (s : TokenSet) (yes no : Parser α) (k : α → Parser β) :
    ifAtAny s yes no >>= k = ifAtAny s (yes >>= k) (no >>= k) := by
  unfold ifAtAny
  rw [bind_assoc]
  congr 1
  funext u
  split <;> rfl

/-- The report of the next symbol where something else was expected. -/
def surprise (p : Progress) (e : Expected) : Diagnostic :=
  { faultBy .unexpectedSymbol p.lookahead with expected := e }

@[simp]
theorem exec_unexpected (e : Expected) (p : Progress) :
    (unexpected e).exec p = (.ok (), p.report (surprise p e)) := rfl

/-- What comes behind an identifier depends on whether there was one. -/
theorem ident_bind (s : TokenSet) (k : Node → Parser β) :
    ident s >>= k = ifAtAny Grammar.identStart (next >>= fun i => k (.leaf .ident i))
      (unexpected (.token .stdIdent) >>= fun _ => skipTo s >>= fun _ => k .empty) := by
  unfold ident leaf
  rw [ifAtAny_bind]
  simp only [bind_assoc, pure_bind]

/-- To expect a token is to accept it and to forget whether it was there. -/
theorem expect_eq (t : Token) (s : TokenSet) : expect t s = accept t s >>= fun _ => pure () := rfl

/-- Reports what is to be reported at the next symbol, if anything is. -/
def note (fault? : Symbol → Option Diagnostic) : Parser Unit := do
  match fault? (← lookahead) with
  | none => return ()
  | some d => report d

theorem exec_note (fault? : Symbol → Option Diagnostic) (p : Progress) :
    (note fault?).exec p = (.ok (), ((fault? p.lookahead).map p.report).getD p) := by
  rw [note, exec_bind, exec_lookahead, proceed_ok]
  cases fault? p.lookahead <;> rfl

/-- Reports a closing identifier that is spelled differently from the opening one. -/
def noteClosing (opening : Option Symbol) : Parser Unit := note (closingFault? opening)

theorem exec_noteClosing (opening : Option Symbol) (p : Progress) :
    (noteClosing opening).exec p =
      (.ok (), ((closingFault? opening p.lookahead).map p.report).getD p) :=
  exec_note (closingFault? opening) p

theorem closing_eq (opening : Option Symbol) (s : TokenSet) :
    closing opening s =
      ifAtAny Grammar.identStart
        (do noteClosing opening; advance)
        (do unexpected (.token .stdIdent); skipTo s) := by
  unfold closing noteClosing note
  congr 1
  rw [bind_assoc]
  congr 1
  funext c
  cases closingFault? opening c <;> rfl

theorem exec_loop (round : α → Parser (Round α)) (a : α) (p : Progress) :
    (loop round a).exec p = (repeatOn round p.ahead a).exec p := rfl

end Modula.Parser
