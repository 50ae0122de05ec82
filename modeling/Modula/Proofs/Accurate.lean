import Modula.Proofs.Composed
import Modula.Proofs.TokenClasses
import Modula.Proofs.TokenSets

/-!
# Rules that report accurately

Steps of reading, as in `Modula.Proofs.Steps`, but with all that is known where a fault is reported:
what was expected is not what is there, an opaque type is reported at its word, a closing identifier
at an identifier. The report of an errant semicolon comes together with the consumption of the
semicolon, since it is the symbol just consumed that is reported, and the next one is named.

A rule is accurate if it reads in such steps. As with `Composed`, the instances follow the text of a
rule; the operation that reports the next symbol as unexpected is accurate only in its context.
-/

namespace Modula

open Modula.Parser Modula.Grammar

/-! ## Expectations -/

/-- The token is meant where `t` is expected: any identifier is, where an identifier is expected. -/
def Token.meets (found t : Token) : Bool := found = t || (found ∈ identStart && t ∈ identStart)

/-- The token is one of those expected. -/
def Expected.admits (e : Expected) (found : Token) : Bool :=
  match e with
  | .token t => found.meets t
  | .set s => s.members.any found.meets
  | .name _ => false

theorem Token.meets_iff_of_isPlain {found t : Token} (h : t.isPlain = true) :
    found.meets t = true ↔ found = t := by
  have ht : t ∉ identStart := by
    revert h
    cases t <;> decide
  simp [meets, ht]

theorem Token.normal_of_mem_identStart {t : Token} (h : t ∈ identStart) : t.normal = .stdIdent := by
  revert h
  cases t <;> decide

/-- Where no identifier is found, none is admitted. -/
theorem admits_stdIdent {found : Token} (h : found ∉ identStart) :
    (Expected.token .stdIdent).admits found = false := by
  revert h
  cases found <;> decide

theorem admits_token {found t : Token} [ht : IsTrue t.isPlain] (h : found ≠ t) :
    (Expected.token t).admits found = false :=
  Bool.eq_false_iff.2 fun hm => h ((Token.meets_iff_of_isPlain ht.eq_true).1 hm)

/-- A set that holds all identifiers or none admits its members. -/
theorem admits_set {s : TokenSet} [s.Uniform] {found : Token} :
    (Expected.set s).admits found = true ↔ found ∈ s := by
  constructor
  · intro h
    obtain ⟨t, ht, hm⟩ := List.any_eq_true.1 h
    have hts : s.contains t = true := TokenBitmap.mem_members.1 ht
    rcases Bool.or_eq_true_iff.1 hm with hm | hm
    · rw [of_decide_eq_true hm]
      exact hts
    · obtain ⟨hfound, hident⟩ := Bool.and_eq_true_iff.1 hm
      have hsame : found.normal = t.normal :=
        (Token.normal_of_mem_identStart (of_decide_eq_true hfound)).trans
          (Token.normal_of_mem_identStart (of_decide_eq_true hident)).symm
      change s.contains found = true
      rw [TokenBitmap.Uniform.contains_eq hsame]
      exact hts
  · intro h
    exact List.any_eq_true.2 ⟨found, TokenBitmap.mem_members.2 h, by simp [Token.meets]⟩

/-! ## Accurate steps -/

namespace Progress

/-- What an accurate rule may report at the next symbol. An operator that starts an expression, but
not the operand of another one, is reported with the set of all that starts an expression. -/
inductive Truthful (p : Progress) : Diagnostic → Prop where
  /-- The next symbol, where something else was expected. -/
  | surprise (e : Expected)
    (h : e.admits p.lookahead.token = true → e = .set expressionStart ∧
      p.lookahead.token ∈ tokens [.plus, .minus, .kwNot]) : Truthful p (surprise p e)
  /-- An empty sequence in front of the next symbol. -/
  | missing (c : Code) (h : c = .emptyStatements ∨ c = .emptyFields) :
    Truthful p (faultBy c p.lookahead)
  /-- An opaque type where there must be none. -/
  | isOpaque (h : p.lookahead.token = .kwOpaque) :
    Truthful p (faultAt .opaqueOutsideDefinition p.lookahead)
  /-- A closing identifier with the wrong spelling. -/
  | closing (opening : Symbol) (hs : p.lookahead.token ∈ identStart)
    (h : opening.text ≠ p.lookahead.text) :
    Truthful p { faultAt .closingMismatch p.lookahead with
      lexeme := p.lookahead.text
      expected := Expected.name opening.text }

/-- The report of a semicolon that is consumed, in front of a closing symbol. -/
def errant (severity : Severity) (p : Progress) : Diagnostic :=
  { faultAt .errantSemicolon p.lookahead with
    severity := severity
    found := p.advance.lookahead.token }

/-- One step of an accurate rule, where errant semicolons are of some severity. -/
inductive Move (severity : Severity) : Progress → Progress → Prop where
  /-- The next symbol is consumed. -/
  | advance (p : Progress) : Move severity p p.advance
  /-- A fault is reported at the next symbol. -/
  | report {p : Progress} {d : Diagnostic} (h : Truthful p d) : Move severity p (p.report d)
  /-- An errant semicolon is consumed and reported. -/
  | errant {p : Progress} (h : p.lookahead.token = .semicolon) :
    Move severity p (p.advance.report (p.errant severity))
  /-- Statements, declarations or procedures are counted. -/
  | count (p : Progress) (f : Statistics → Statistics) : Move severity p (p.count f)

/-- Any number of steps. -/
def Moves (severity : Severity) : Progress → Progress → Prop :=
  Relation.ReflTransGen (Move severity)

namespace Moves

variable {v : Severity} {p q r : Progress}

theorem refl (p : Progress) : Moves v p p := Relation.ReflTransGen.refl

theorem trans (hpq : Moves v p q) (hqr : Moves v q r) : Moves v p r :=
  Relation.ReflTransGen.trans hpq hqr

theorem step (h : Move v p q) : Moves v p q := Relation.ReflTransGen.single h

/-- What holds of the start and is kept by every step holds at the end. -/
theorem invariant (h : Moves v p q) {motive : Progress → Prop}
    (hstep : ∀ r s, Move v r s → motive r → motive s) (hp : motive p) : motive q := by
  induction h with
  | refl => exact hp
  | tail _ hrs ih => exact hstep _ _ hrs ih

theorem skipTo (s : TokenSet) (p : Progress) : Moves v p (p.skipTo s) :=
  skipTo_induction s (fun q hq => hq.trans (step (.advance q))) p (refl p)

end Moves

end Progress

/-! ## Accurate rules -/

namespace Parser

variable {α β : Type} {v : Severity}

/-- Where an accurate rule may end up: it has read in accurate steps and then answered, given up, or
made more rounds than there were symbols. -/
def Arrives (v : Severity) (p : Progress) : Except Stop α × Progress → Prop
  | (.ok _, q) => p.Moves v q
  | (.error (.failed _), q) =>
    ∃ r, p.Moves v r ∧ q = r.report (faultAt .nestingTooDeep r.lookahead)
  | (.error .endless, q) => p.Moves v q

/-- The rule reads in accurate steps. -/
class Accurate (v : Severity) (m : Parser α) : Prop where
  arrives : ∀ p, Arrives v p (m.exec p)

theorem Arrives.of_moves {p q : Progress} {x : Except Stop α × Progress} (h : p.Moves v q)
    (hx : Arrives v q x) : Arrives v p x := by
  rcases x with ⟨(f | _) | a, r⟩
  · obtain ⟨s, hs, hr⟩ := hx
    exact ⟨s, h.trans hs, hr⟩
  · exact h.trans hx
  · exact h.trans hx

theorem Arrives.proceed {p : Progress} {x : Except Stop α × Progress} {k : α → Parser β}
    (hx : Arrives v p x) (hk : ∀ a q, Arrives v q ((k a).exec q)) :
    Arrives v p (proceed k x) := by
  rcases x with ⟨(f | _) | a, q⟩
  · exact hx
  · exact hx
  · exact .of_moves hx (hk a q)

theorem arrives_repeatOn {round : α → Parser (Round α)}
    (hr : ∀ a p, Arrives v p ((round a).exec p)) (bound : List Item) (a : α) (p : Progress) :
    Arrives v p ((repeatOn round bound a).exec p) := by
  induction bound generalizing a p with
  | nil =>
    rw [repeatOn, exec_bind]
    refine (hr a p).proceed fun b q => ?_
    cases b with
    | more b => exact Progress.Moves.refl q
    | done b => exact Progress.Moves.refl q
  | cons i bound ih =>
    rw [repeatOn, exec_bind]
    refine (hr a p).proceed fun b q => ?_
    cases b with
    | more b => exact ih b q
    | done b => exact .refl q

namespace Accurate

/-- An operation that always answers. -/
theorem of_exec {m : Parser α} (h : ∀ p, ∃ a q, m.exec p = (.ok a, q) ∧ p.Moves v q) :
    Accurate v m := by
  refine ⟨fun p => ?_⟩
  obtain ⟨a, q, hm, hq⟩ := h p
  rw [hm]
  exact hq

instance (a : α) : Accurate v (Pure.pure a : Parser α) := of_exec fun p => ⟨a, p, rfl, .refl p⟩

theorem bind {m : Parser α} {k : α → Parser β} (hm : Accurate v m) (hk : ∀ a, Accurate v (k a)) :
    Accurate v (m >>= k) := by
  refine ⟨fun p => ?_⟩
  rw [exec_bind]
  exact (hm.arrives p).proceed fun a => (hk a).arrives

instance {m : Parser α} {k : α → Parser β} [hm : Accurate v m] [hk : ∀ a, Accurate v (k a)] :
    Accurate v (m >>= k) := hm.bind hk

instance {m : Parser α} {f : α → β} [Accurate v m] : Accurate v (f <$> m) := by
  rw [← bind_pure_comp]
  infer_instance

instance {c : Prop} [Decidable c] {yes no : Parser α} [hy : Accurate v yes]
    [hn : Accurate v no] : Accurate v (if c then yes else no) := by
  split
  · exact hy
  · exact hn

instance : Accurate v lookahead := of_exec fun p => ⟨_, p, rfl, .refl p⟩

instance : Accurate v token := of_exec fun p => ⟨_, p, rfl, .refl p⟩

/-- A choice by the next token. -/
theorem token_bind {k : Token → Parser α} (h : ∀ t, Accurate v (k t)) : Accurate v (token >>= k) :=
  bind inferInstance h

instance : Accurate v Parser.advance := of_exec fun p => ⟨_, _, rfl, .step (.advance p)⟩

instance : Accurate v next := of_exec fun p => ⟨_, _, rfl, .step (.advance p)⟩

instance (k : Kind) : Accurate v (leaf k) := of_exec fun p => ⟨_, _, rfl, .step (.advance p)⟩

instance (s : TokenSet) : Accurate v (Parser.skipTo s) :=
  of_exec fun p => ⟨_, _, rfl, .skipTo s p⟩

instance (f : Statistics → Statistics) : Accurate v (Parser.count f) :=
  of_exec fun p => ⟨_, _, rfl, .step (.count p f)⟩

/-! ### Choices -/

/-- A choice by the next token, of which each rule is accurate where it is chosen. -/
theorem ifAt {t : Token} {yes no : Parser α}
    (hy : ∀ p : Progress, p.lookahead.token = t → Arrives v p (yes.exec p))
    (hn : ∀ p : Progress, p.lookahead.token ≠ t → Arrives v p (no.exec p)) :
    Accurate v (ifAt t yes no) := by
  refine ⟨fun p => ?_⟩
  rw [exec_ifAt]
  split
  · next ht => exact hy p ht
  · next ht => exact hn p ht

theorem ifAtAny {s : TokenSet} {yes no : Parser α}
    (hy : ∀ p : Progress, p.lookahead.token ∈ s → Arrives v p (yes.exec p))
    (hn : ∀ p : Progress, p.lookahead.token ∉ s → Arrives v p (no.exec p)) :
    Accurate v (ifAtAny s yes no) := by
  refine ⟨fun p => ?_⟩
  rw [exec_ifAtAny]
  split
  · next hs => exact hy p hs
  · next hs => exact hn p hs

/-- The next symbol is reported where it is not what was expected. -/
theorem arrives_unexpected {e : Expected} {p : Progress}
    (h : e.admits p.lookahead.token = true → e = .set expressionStart ∧
      p.lookahead.token ∈ tokens [.plus, .minus, .kwNot])
    {k : Unit → Parser α} [hk : ∀ u, Accurate v (k u)] :
    Arrives v p ((unexpected e >>= k).exec p) := by
  rw [exec_bind, exec_unexpected, proceed_ok]
  exact .of_moves (.step (.report (.surprise e h))) ((hk ()).arrives _)

theorem arrives_unexpected_of_eq_false {e : Expected} {p : Progress}
    (h : e.admits p.lookahead.token = false) {k : Unit → Parser α} [∀ u, Accurate v (k u)] :
    Arrives v p ((unexpected e >>= k).exec p) :=
  arrives_unexpected fun hm => absurd (h.symm.trans hm) Bool.false_ne_true

instance (t : Token) (yes no : Parser α) [hy : Accurate v yes] [hn : Accurate v no] :
    Accurate v (Parser.ifAt t yes no) := ifAt (fun p _ => hy.arrives p) fun p _ => hn.arrives p

instance (s : TokenSet) (yes no : Parser α) [hy : Accurate v yes] [hn : Accurate v no] :
    Accurate v (Parser.ifAtAny s yes no) :=
  ifAtAny (fun p _ => hy.arrives p) fun p _ => hn.arrives p

/-- A token that is missing is reported. -/
instance (t : Token) [IsTrue t.isPlain] (yes : Parser α) (k : Unit → Parser α)
    [hy : Accurate v yes] [∀ u, Accurate v (k u)] :
    Accurate v (Parser.ifAt t yes (unexpected (.token t) >>= k)) :=
  ifAt (fun p _ => hy.arrives p) fun _ hp => arrives_unexpected_of_eq_false (admits_token hp)

/-- A token of a set that is missing is reported. -/
instance (s : TokenSet) [s.Uniform] (yes : Parser α) (k : Unit → Parser α)
    [hy : Accurate v yes] [∀ u, Accurate v (k u)] :
    Accurate v (Parser.ifAtAny s yes (unexpected (.set s) >>= k)) :=
  ifAtAny (fun p _ => hy.arrives p) fun _ hp =>
    arrives_unexpected_of_eq_false (Bool.eq_false_iff.2 fun hm => hp (admits_set.1 hm))

/-- An identifier that is missing is reported. -/
instance (yes : Parser α) (k : Unit → Parser α) [hy : Accurate v yes] [∀ u, Accurate v (k u)] :
    Accurate v (Parser.ifAtAny identStart yes (unexpected (.token .stdIdent) >>= k)) :=
  ifAtAny (fun p _ => hy.arrives p) fun _ hp => arrives_unexpected_of_eq_false (admits_stdIdent hp)

/-! ### Matching -/

instance (t : Token) [IsTrue t.isPlain] (s : TokenSet) : Accurate v (accept t s) := by
  unfold accept
  infer_instance

instance (t : Token) [IsTrue t.isPlain] (s : TokenSet) : Accurate v (expect t s) := by
  rw [expect_eq]
  infer_instance

instance (s r : TokenSet) [s.Uniform] : Accurate v (expectAny s r) := by
  unfold expectAny
  infer_instance

instance (s : TokenSet) : Accurate v (ident s) := by
  unfold ident
  infer_instance

/-- A closing identifier is compared only where there is one. -/
instance (opening : Option Symbol) (s : TokenSet) : Accurate v (closing opening s) := by
  rw [closing_eq]
  refine ifAtAny (fun p hp => ?_) fun p hp => ?_
  · rw [exec_bind, exec_noteClosing, proceed_ok]
    refine .of_moves ?_ ((inferInstance : Accurate v Parser.advance).arrives _)
    unfold closingFault?
    split
    · exact .refl p
    · next s =>
      split
      · exact .refl p
      · next hne => exact .step (.report (.closing s hp hne))
  · exact arrives_unexpected_of_eq_false (admits_stdIdent hp)

/-! ### Repetition -/

instance (round : α → Parser (Round α)) (a : α) [hr : ∀ a, Accurate v (round a)] :
    Accurate v (loop round a) :=
  ⟨fun p => arrives_repeatOn (fun a => (hr a).arrives) p.ahead a p⟩

instance (separator : Token) (item : Parser α) [Accurate v item] :
    Accurate v (separated separator item) := by
  unfold separated
  infer_instance

instance (s : TokenSet) (item : Parser α) [Accurate v item] : Accurate v (whileAtAny s item) := by
  unfold whileAtAny
  infer_instance

end Accurate

end Parser

end Modula
