import Modula.Proofs.Steps

/-!
# Rules made of operations

The rules of the grammar are put together from a few operations, and a rule may repeat a round only
if every further round consumes a symbol. `Composed` says so of a rule. Its instances follow the
text of a rule, so that most rules are seen to be composed by looking for instances.

What is proved of all composed rules here: they read in steps, and where they give up, the limit on
nesting was exceeded, which is the last thing they report. Nor is one of their repetitions endless,
because there are fewer symbols behind every round that goes on.
-/

namespace Modula

open Modula.Parser

variable {α β : Type}

namespace Parser

theorem exec_bind_eq_ok {m : Parser α} {k : α → Parser β} {p q : Progress} {b : β} :
    (m >>= k).exec p = (.ok b, q) ↔
      ∃ a r, m.exec p = (.ok a, r) ∧ (k a).exec r = (.ok b, q) := by
  rw [exec_bind]
  rcases m.exec p with ⟨f | a, r⟩
  · simp
  · constructor
    · intro h
      exact ⟨a, r, rfl, h⟩
    · rintro ⟨_, _, hm, h⟩
      cases hm
      exact h

/-- Every further round consumes a symbol. -/
def Consuming (round : α → Parser (Round α)) : Prop :=
  ∀ a p b q, p.Closed → (round a).exec p = (.ok (.more b), q) → q.ahead.length < p.ahead.length

/-- A rule that is put together from the operations, with a limit on nesting. -/
class inductive Composed (n : Nat) : {α : Type} → Parser α → Prop where
  | pure {α : Type} (a : α) : Composed n (pure a)
  | bind {α β : Type} (m : Parser α) (k : α → Parser β) (hm : Composed n m)
    (hk : ∀ a, Composed n (k a)) : Composed n (m >>= k)
  | lookahead : Composed n lookahead
  /-- Reports what is to be reported at the next symbol, if anything is. -/
  | note (fault? : Symbol → Option Diagnostic)
    (h : ∀ (p : Progress) (d : Diagnostic), fault? p.lookahead = some d → p.Reportable d) :
    Composed n (note fault?)
  | advance : Composed n advance
  | skipTo (s : TokenSet) : Composed n (skipTo s)
  | count (f : Statistics → Statistics) : Composed n (count f)
  /-- Repeats a round that consumes a symbol each time it is to be repeated. -/
  | loop {α : Type} (round : α → Parser (Round α)) (a : α) (hr : ∀ a, Composed n (round a))
    (hc : Consuming round) : Composed n (loop round a)
  /-- Gives up where constructs are nested too deep. -/
  | giveUp {α : Type} : Composed n (α := α)
      (do
        report (faultAt .nestingTooDeep (← lookahead))
        throw (.failed (.nestingTooDeep n)))

/-- Where a rule may end up: it has read in steps and then answered, given up, or made more rounds
than there were symbols. -/
def Reaches (n : Nat) (p : Progress) : Except Stop α × Progress → Prop
  | (.ok _, q) => p.Steps q
  | (.error (.failed f), q) => f = .nestingTooDeep n ∧
    ∃ r, p.Steps r ∧ q = r.report (faultAt .nestingTooDeep r.lookahead)
  | (.error .endless, q) => p.Steps q

theorem Reaches.of_steps {n : Nat} {p q : Progress} {x : Except Stop α × Progress}
    (h : p.Steps q) (hx : Reaches n q x) : Reaches n p x := by
  rcases x with ⟨(f | _) | a, r⟩
  · obtain ⟨hf, s, hs, hr⟩ := hx
    exact ⟨hf, s, h.trans hs, hr⟩
  · exact h.trans hx
  · exact h.trans hx

theorem Reaches.proceed {n : Nat} {p : Progress} {x : Except Stop α × Progress}
    {k : α → Parser β} (hx : Reaches n p x) (hk : ∀ a q, Reaches n q ((k a).exec q)) :
    Reaches n p (proceed k x) := by
  rcases x with ⟨(f | _) | a, q⟩
  · exact hx
  · exact hx
  · exact .of_steps hx (hk a q)

theorem reaches_repeatOn {n : Nat} {round : α → Parser (Round α)}
    (hr : ∀ a p, Reaches n p ((round a).exec p)) (bound : List Item) (a : α) (p : Progress) :
    Reaches n p ((repeatOn round bound a).exec p) := by
  induction bound generalizing a p with
  | nil =>
    rw [repeatOn, exec_bind]
    refine (hr a p).proceed fun b q => ?_
    cases b with
    | more b => exact .refl q
    | done b => exact .refl q
  | cons i bound ih =>
    rw [repeatOn, exec_bind]
    refine (hr a p).proceed fun b q => ?_
    cases b with
    | more b => exact ih b q
    | done b => exact .refl q

/-- A composed rule reads in steps, and fails only where it gives up. -/
theorem Composed.reaches {n : Nat} {m : Parser α} (h : Composed n m) (p : Progress) :
    Reaches n p (m.exec p) := by
  induction h generalizing p with
  | pure a => exact .refl p
  | bind m k _ _ ihm ihk =>
    rw [exec_bind]
    exact (ihm p).proceed ihk
  | lookahead => exact .refl p
  | note fault? h =>
    rw [exec_note]
    cases hd : fault? p.lookahead with
    | none => exact .refl p
    | some d => exact .step (.report (h p d hd))
  | advance => exact .step (.advance p)
  | skipTo s => exact .skipTo s p
  | count f => exact .step (.count p f)
  | loop round a _ _ ih => exact reaches_repeatOn ih p.ahead a p
  | giveUp => exact ⟨rfl, p, .refl p, rfl⟩

theorem Composed.steps {n : Nat} {m : Parser α} (h : Composed n m) {p q : Progress} {a : α}
    (hm : m.exec p = (.ok a, q)) : p.Steps q := by
  have := h.reaches p
  rwa [hm] at this

theorem proceed_ne_endless {x : Except Stop α × Progress} {k : α → Parser β}
    (hx : x.1 ≠ .error .endless)
    (hk : ∀ a q, x = (.ok a, q) → ((k a).exec q).1 ≠ .error .endless) :
    (proceed k x).1 ≠ .error .endless := by
  rcases x with ⟨f | a, q⟩
  · exact fun heq => hx (congrArg Except.error (Except.error.inj heq))
  · exact hk a q rfl

/-- A repetition is not endless if there are at most as many symbols as the bound is long, since each
round that goes on makes both less. -/
theorem repeatOn_ne_endless {n : Nat} {round : α → Parser (Round α)}
    (hr : ∀ a, Composed n (round a))
    (hround : ∀ a p, p.Closed → ((round a).exec p).1 ≠ .error .endless) (hc : Consuming round)
    {bound : List Item} {a : α} {p : Progress} (hp : p.Closed)
    (hbound : p.ahead.length ≤ bound.length) :
    ((repeatOn round bound a).exec p).1 ≠ .error .endless := by
  induction bound generalizing a p with
  | nil =>
    rw [repeatOn, exec_bind]
    refine proceed_ne_endless (hround a p hp) fun b q hx => ?_
    cases b with
    | more b =>
      have hlt := hc a p b q hp hx
      exact absurd (Nat.lt_of_lt_of_le hlt hbound) (Nat.not_lt_zero _)
    | done b => exact nofun
  | cons i bound ih =>
    rw [repeatOn, exec_bind]
    refine proceed_ne_endless (hround a p hp) fun b q hx => ?_
    cases b with
    | more b =>
      have hlt := hc a p b q hp hx
      exact ih (((hr a).steps hx).closed hp)
        (Nat.le_of_lt_succ (Nat.lt_of_lt_of_le hlt hbound))
    | done b => exact nofun

/-- No repetition of a composed rule is endless. -/
theorem Composed.ne_endless {n : Nat} {m : Parser α} (h : Composed n m) {p : Progress}
    (hp : p.Closed) : (m.exec p).1 ≠ .error .endless := by
  induction h generalizing p with
  | pure a => exact nofun
  | bind m k hm _ ihm ihk =>
    rw [exec_bind]
    exact proceed_ne_endless (ihm hp) fun a q hx => ihk a ((hm.steps hx).closed hp)
  | lookahead => exact nofun
  | note fault? h =>
    rw [exec_note]
    exact nofun
  | advance => exact nofun
  | skipTo s => exact nofun
  | count f => exact nofun
  | loop round a hr hc ih => exact repeatOn_ne_endless hr (fun a p => ih a) hc hp (Nat.le_refl _)
  | giveUp => exact nofun

/-- A composed rule answers, or it gives up where constructs are nested too deep. -/
theorem Composed.answers_or_gives_up {n : Nat} {m : Parser α} (h : Composed n m) {p : Progress}
    (hp : p.Closed) :
    (∃ a q, m.exec p = (.ok a, q) ∧ p.Steps q) ∨
      ∃ q, p.Steps q ∧ m.exec p =
        (.error (.failed (.nestingTooDeep n)), q.report (faultAt .nestingTooDeep q.lookahead)) := by
  have hreach := h.reaches p
  have hendless := h.ne_endless hp
  rcases hx : m.exec p with ⟨(f | _) | a, q⟩ <;> rw [hx] at hreach hendless
  · obtain ⟨rfl, r, hsteps, rfl⟩ := hreach
    exact .inr ⟨r, hsteps, rfl⟩
  · exact absurd rfl hendless
  · exact .inl ⟨a, q, rfl, hreach⟩

/-- Nothing that is read takes a report back. -/
theorem Reaches.reports_grow {n : Nat} {p : Progress} {x : Except Stop α × Progress}
    (h : Reaches n p x) : p.queue.toList <+: x.2.queue.toList := by
  rcases x with ⟨(f | _) | a, q⟩
  · obtain ⟨-, r, hr, rfl⟩ := h
    exact hr.reports_grow.trans (r.reports_grow_report _)
  · exact Progress.Steps.reports_grow h
  · exact Progress.Steps.reports_grow h

/-! ## Operations -/

namespace Composed

variable {n : Nat}

instance (a : α) : Composed n (Pure.pure a : Parser α) := .pure a

instance {m : Parser α} {k : α → Parser β} [hm : Composed n m]
    [hk : ∀ a, Composed n (k a)] : Composed n (m >>= k) := .bind m k hm hk

instance {m : Parser α} {f : α → β} [hm : Composed n m] : Composed n (f <$> m) := by
  rw [← bind_pure_comp]
  infer_instance

instance {c : Prop} [Decidable c] {yes no : Parser α} [hy : Composed n yes]
    [hn : Composed n no] : Composed n (if c then yes else no) := by
  split
  · exact hy
  · exact hn

instance : Composed n Parser.lookahead := .lookahead

instance : Composed n token :=
  (inferInstance : Composed n (Parser.lookahead >>= fun s => Pure.pure s.token))

instance : Composed n Parser.advance := .advance

instance : Composed n next :=
  (inferInstance :
    Composed n (Parser.lookahead >>= fun s => Parser.advance >>= fun _ => Pure.pure s))

instance (s : TokenSet) : Composed n (Parser.skipTo s) := .skipTo s

instance (f : Statistics → Statistics) : Composed n (Parser.count f) := .count f

/-- A rule that reports something at the next symbol. -/
theorem note_some (fault : Symbol → Diagnostic)
    (h : ∀ p : Progress, p.Reportable (fault p.lookahead)) :
    Composed n (do report (fault (← Parser.lookahead))) :=
  .note (fun s => some (fault s)) fun p d hd => by
    cases hd
    exact h p

instance (e : Expected) : Composed n (unexpected e) := note_some _ fun _ => .surprise e

instance (t : Token) (yes no : Parser α) [Composed n yes] [Composed n no] :
    Composed n (ifAt t yes no) := by
  unfold ifAt
  infer_instance

instance (s : TokenSet) (yes no : Parser α) [Composed n yes] [Composed n no] :
    Composed n (ifAtAny s yes no) := by
  unfold ifAtAny
  infer_instance

instance (t : Token) (s : TokenSet) : Composed n (accept t s) := by
  unfold accept
  infer_instance

instance (t : Token) (s : TokenSet) : Composed n (expect t s) := by
  rw [expect_eq]
  infer_instance

instance (s r : TokenSet) : Composed n (expectAny s r) := by
  unfold expectAny
  infer_instance

instance (k : Kind) : Composed n (leaf k) := by
  unfold leaf
  infer_instance

instance (s : TokenSet) : Composed n (ident s) := by
  unfold ident
  infer_instance

instance (opening : Option Symbol) : Composed n (noteClosing opening) :=
  .note _ fun _ d hd => .closing opening d hd

instance (opening : Option Symbol) (s : TokenSet) : Composed n (closing opening s) := by
  rw [closing_eq]
  infer_instance

end Composed

end Parser

end Modula
