import Modula.Proofs.Composed

/-!
# Rules that answer near the end of a source

Only the limit on nesting keeps a rule from answering, and a call of a nested construct consumes a
symbol before it makes another one. So the fewer symbols are ahead, the less deep a rule can get. A
rule answers below `k` if it does not give up wherever fewer than `k` symbols are ahead; that no
repetition of it is endless is shown elsewhere. To go one level deeper is to go behind a symbol,
which is what `AnswersAt.word` says.
-/

namespace Modula.Parser

variable {α β : Type}

/-- There is an answer, with no more symbols ahead than before, or a repetition was endless. -/
def Answered (p : Progress) : Except Stop α × Progress → Prop
  | (.ok _, q) => q.Closed ∧ q.ahead.length ≤ p.ahead.length
  | (.error stop, _) => stop = .endless

/-- The rule does not give up from here, and has no more symbols ahead where it answers. -/
def AnswersFrom (p : Progress) (m : Parser α) : Prop := Answered p (m.exec p)

theorem Answered.mono {p q : Progress} {x : Except Stop α × Progress} (h : Answered q x)
    (hle : q.ahead.length ≤ p.ahead.length) : Answered p x := by
  rcases x with ⟨stop | a, r⟩
  · exact h
  · exact ⟨h.1, Nat.le_trans h.2 hle⟩

theorem AnswersFrom.bind {p : Progress} {m : Parser α} {f : α → Parser β} (hm : AnswersFrom p m)
    (hf : ∀ a q, q.Closed → q.ahead.length ≤ p.ahead.length → AnswersFrom q (f a)) :
    AnswersFrom p (m >>= f) := by
  unfold AnswersFrom at hm
  rw [AnswersFrom, exec_bind]
  rcases hx : m.exec p with ⟨stop | a, q⟩ <;> rw [hx] at hm
  · exact hm
  · exact (hf a q hm.1 hm.2).mono hm.2

/-- Where the next token is one of `S` and fewer than `k` symbols are ahead, the rule answers. -/
def AnswersAt (S : Token → Prop) (k : Nat) (m : Parser α) : Prop :=
  ∀ p, p.Closed → S p.lookahead.token → p.ahead.length < k → AnswersFrom p m

/-- Wherever fewer than `k` symbols are ahead, the rule answers. -/
class Answers (k : Nat) (m : Parser α) : Prop where
  answers : ∀ p, p.Closed → p.ahead.length < k → AnswersFrom p m

namespace AnswersAt

variable {S : Token → Prop} {k : Nat} {t : Token}

theorem of_answers {m : Parser α} (h : Answers k m) : AnswersAt S k m :=
  fun p hp _ hk => h.answers p hp hk

theorem zero (m : Parser α) : AnswersAt S 0 m := fun _ _ _ hk => absurd hk (Nat.not_lt_zero _)

theorem bind {m : Parser α} {f : α → Parser β} (hm : AnswersAt S k m)
    (hf : ∀ a, Answers k (f a)) : AnswersAt S k (m >>= f) := by
  intro p hp hS hk
  exact (hm p hp hS hk).bind fun a q hq hle =>
    (hf a).answers q hq (Nat.lt_of_le_of_lt hle hk)

/-- Behind a symbol, one less is ahead. -/
theorem word (ht : t ≠ .endOfFile) {m : Parser α}
    (hm : ∀ p, p.lookahead.token = t → ∃ a, m.exec p = (.ok a, p.advance)) {f : α → Parser β}
    (hf : ∀ a, Answers k (f a)) : AnswersAt (· = t) (k + 1) (m >>= f) := by
  rintro p hp rfl hk
  obtain ⟨a, ha⟩ := hm p rfl
  have hlt := hp.length_ahead_advance ht
  have hlater := (hf a).answers p.advance hp.advance (by omega)
  rw [AnswersFrom, exec_bind, ha, proceed_ok]
  exact hlater.mono (Nat.le_of_lt hlt)

theorem advance {f : Unit → Parser β} (hf : ∀ u, Answers k (f u))
    (ht : t ≠ .endOfFile := by decide) : AnswersAt (· = t) (k + 1) (Parser.advance >>= f) :=
  word ht (fun _ _ => ⟨(), rfl⟩) hf

/-- Where the token is there, to expect it is to consume it. -/
theorem expect (s : TokenSet) {f : Unit → Parser β} (hf : ∀ u, Answers k (f u))
    (ht : t ≠ .endOfFile := by decide) :
    AnswersAt (· = t) (k + 1) (Parser.expect t s >>= f) := by
  refine word ht (fun p hp => ⟨(), ?_⟩) hf
  rw [expect_eq, exec_bind, accept, exec_ifAt, if_pos hp]
  rfl

end AnswersAt

namespace Answers

variable {k : Nat}

/-- A rule that is composed whatever the limit is cannot give up, as it would have to do so for two
different limits. -/
instance (priority := low) of_composed (m : Parser α) [h : ∀ n, Composed n m] : Answers k m where
  answers p hp _ := by
    have hzero := (h 0).reaches p
    have hone := (h 1).reaches p
    unfold AnswersFrom
    rcases hx : m.exec p with ⟨(f | _) | a, q⟩
    · rw [hx] at hzero hone
      exact absurd (hzero.1.symm.trans hone.1) nofun
    · rfl
    · have hsteps := (h 0).steps hx
      exact ⟨hsteps.closed hp, hsteps.length_ahead_le⟩

theorem zero (m : Parser α) : Answers 0 m := ⟨fun _ _ hk => absurd hk (Nat.not_lt_zero _)⟩

theorem bind {m : Parser α} {f : α → Parser β} (hm : Answers k m) (hf : ∀ a, Answers k (f a)) :
    Answers k (m >>= f) where
  answers p hp hk := (AnswersAt.of_answers (S := fun _ => True) hm).bind hf p hp trivial hk

/-- A choice by the next token, which may be relied on in each case. -/
theorem token_bind {f : Token → Parser α} (h : ∀ t, AnswersAt (· = t) k (f t)) :
    Answers k (token >>= f) where
  answers p hp hk := by
    unfold AnswersFrom
    rw [exec_bind, exec_token, proceed_ok]
    exact h _ p hp rfl hk

theorem ifAt {t : Token} {yes no : Parser α} (hy : AnswersAt (· = t) k yes)
    (hn : Answers k no) : Answers k (ifAt t yes no) where
  answers p hp hk := by
    unfold AnswersFrom
    rw [exec_ifAt]
    split
    · next ht => exact hy p hp ht hk
    · exact hn.answers p hp hk

instance (t : Token) (yes no : Parser α) [hy : Answers k yes] [hn : Answers k no] :
    Answers k (Parser.ifAt t yes no) := .ifAt (.of_answers hy) hn

instance (s : TokenSet) (yes no : Parser α) [hy : Answers k yes] [hn : Answers k no] :
    Answers k (ifAtAny s yes no) where
  answers p hp hk := by
    unfold AnswersFrom
    rw [exec_ifAtAny]
    split
    · exact hy.answers p hp hk
    · exact hn.answers p hp hk

instance (m : Parser α) (f : α → Parser β) [hm : Answers k m] [hf : ∀ a, Answers k (f a)] :
    Answers k (m >>= f) := hm.bind hf

instance (m : Parser α) (f : α → β) [hm : Answers k m] : Answers k (f <$> m) := by
  rw [← bind_pure_comp]
  infer_instance

instance (c : Prop) [Decidable c] (yes no : Parser α) [hy : Answers k yes]
    [hn : Answers k no] : Answers k (if c then yes else no) := by
  split
  · exact hy
  · exact hn

theorem repeatOn {round : α → Parser (Round α)} (hr : ∀ a, Answers k (round a))
    (bound : List Item) (a : α) : Answers k (repeatOn round bound a) := by
  induction bound generalizing a with
  | nil =>
    refine (hr a).bind fun b => ?_
    cases b with
    | more b => exact ⟨fun _ _ _ => rfl⟩
    | done b => exact of_composed _
  | cons i bound ih =>
    refine (hr a).bind fun b => ?_
    cases b with
    | more b => exact ih b
    | done b => exact of_composed _

instance (round : α → Parser (Round α)) (a : α) [hr : ∀ a, Answers k (round a)] :
    Answers k (loop round a) where
  answers p hp hk := (repeatOn hr p.ahead a).answers p hp hk

instance (t : Token) (item : Parser α) [Answers k item] : Answers k (separated t item) := by
  unfold separated
  infer_instance

instance (s : TokenSet) (item : Parser α) [Answers k item] : Answers k (whileAtAny s item) := by
  unfold whileAtAny
  infer_instance

end Answers

end Modula.Parser
