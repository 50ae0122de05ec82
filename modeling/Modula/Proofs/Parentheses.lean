import Modula.Proofs.BridgesRules

/-!
# Formal parameters bridge omissions

A semicolon between formal parameters is not reported as missing where the next parameters start,
so it is not one that may be missing here. Such a semicolon is told by what comes behind it: formal
parameters have no parentheses, so the next parenthesis is the one that closes the list.
-/

namespace Modula

open Modula.Parser Modula.Grammar

/-- A closing parenthesis that is the next one behind a run of the rule without a fault is the next
one in front of it, too. -/
class ClosesThrough (H : Omission) {α : Type} (m : Parser α) : Prop where
  closes : ∀ {p : Progress} {a : α} {q : Progress}, m.exec p = (.ok a, q) → q.IsClean →
    ClosesFirst q.rest → ClosesFirst p.rest

theorem Progress.closesFirst_of_advance {p : Progress}
    (hp : p.lookahead.token.isNoParenthesis = true) (h : ClosesFirst p.advance.rest) :
    ClosesFirst p.rest := by
  unfold Progress.advance at h
  split at h
  · exact h
  · next i ahead hi =>
    rw [rest, hi]
    exact (closesFirst_cons hp).2 h

namespace ClosesThrough

variable {H : Omission} {α β : Type}

instance (m : Parser α) [h : Faulty H m] : ClosesThrough H m where
  closes hx hq _ := absurd hq (h.not_clean hx)

instance (a : α) : ClosesThrough H (pure a : Parser α) where
  closes hx _ hclose := by
    cases hx
    exact hclose

instance (m : Parser α) (k : α → Parser β) [hm : ClosesThrough H m]
    [hk : ∀ a, ClosesThrough H (k a)] [hc : ∀ a, Composed H.limit (k a)] :
    ClosesThrough H (m >>= k) where
  closes hx hq hclose := by
    obtain ⟨a, r, ha, hb⟩ := exec_bind_eq_ok.1 hx
    exact hm.closes ha (hq.of_exec (hc a) hb) ((hk a).closes hb hq hclose)

instance (m : Parser α) (f : α → β) [ClosesThrough H m] : ClosesThrough H (f <$> m) := by
  rw [← bind_pure_comp]
  infer_instance

instance (c : Prop) [Decidable c] (yes no : Parser α) [hy : ClosesThrough H yes]
    [hn : ClosesThrough H no] : ClosesThrough H (if c then yes else no) := by
  split
  · exact hy
  · exact hn

instance (t : Token) (yes no : Parser α) [hy : ClosesThrough H yes] [hn : ClosesThrough H no] :
    ClosesThrough H (ifAt t yes no) where
  closes hx hq hclose := by
    rw [exec_ifAt] at hx
    split at hx
    · exact hy.closes hx hq hclose
    · exact hn.closes hx hq hclose

instance (s : TokenSet) (yes no : Parser α) [hy : ClosesThrough H yes] [hn : ClosesThrough H no] :
    ClosesThrough H (ifAtAny s yes no) where
  closes hx hq hclose := by
    rw [exec_ifAtAny] at hx
    split at hx
    · exact hy.closes hx hq hclose
    · exact hn.closes hx hq hclose

/-- What consumes a symbol that is no parenthesis. -/
instance (t : Token) [ht : IsTrue t.isNoParenthesis] (k : Unit → Parser α) (no : Parser α)
    [hk : ∀ u, ClosesThrough H (k u)] [hn : ClosesThrough H no] :
    ClosesThrough H (ifAt t (Parser.advance >>= k) no) where
  closes hx hq hclose := by
    rw [exec_ifAt] at hx
    split at hx
    · next h =>
      rw [exec_bind, exec_advance, proceed_ok] at hx
      exact Progress.closesFirst_of_advance (h ▸ ht.eq_true) ((hk ()).closes hx hq hclose)
    · exact hn.closes hx hq hclose

instance (t : Token) [ht : IsTrue t.isNoParenthesis] (k : Symbol → Parser α) (no : Parser α)
    [hk : ∀ s, ClosesThrough H (k s)] [hn : ClosesThrough H no] :
    ClosesThrough H (ifAt t (next >>= k) no) where
  closes hx hq hclose := by
    rw [exec_ifAt] at hx
    split at hx
    · next h =>
      rw [exec_bind, exec_next, proceed_ok] at hx
      exact Progress.closesFirst_of_advance (h ▸ ht.eq_true) ((hk _).closes hx hq hclose)
    · exact hn.closes hx hq hclose

/-- A choice by the next token, which may consume it. -/
theorem token_bind {k : Token → Parser α}
    (hk : ∀ t, ClosesThrough H (k t) ∨ t.isNoParenthesis = true ∧
      ∃ j : Unit → Parser α, k t = Parser.advance >>= j ∧ ∀ u, ClosesThrough H (j u)) :
    ClosesThrough H (token >>= k) where
  closes {p a q} hx hq hclose := by
    rw [exec_bind, exec_token, proceed_ok] at hx
    rcases hk p.lookahead.token with hk | ⟨ht, j, hj, hk⟩
    · exact hk.closes hx hq hclose
    · rw [hj, exec_bind, exec_advance, proceed_ok] at hx
      exact Progress.closesFirst_of_advance ht ((hk ()).closes hx hq hclose)

instance (t : Token) [IsTrue t.isNoParenthesis] (s : TokenSet) :
    ClosesThrough H (expect t s) := by
  rw [expect_eq, accept, ifAt_bind]
  simp only [bind_assoc]
  infer_instance

instance (s : TokenSet) : ClosesThrough H (ident s) where
  closes hx hq hclose := by
    unfold ident at hx
    rw [exec_ifAtAny] at hx
    split at hx
    · next h =>
      cases hx
      have hident : ∀ t : Token, t ∈ identStart → t.isNoParenthesis = true := by
        intro t
        cases t <;> decide
      exact Progress.closesFirst_of_advance (hident _ h) hclose
    · exact absurd hq (Faulty.not_clean (H := H) hx)

instance (round : α → Parser (Round α)) (a : α) [hr : ∀ a, ClosesThrough H (round a)]
    [hc : ∀ a, Composed H.limit (round a)] : ClosesThrough H (loop round a) := by
  have hall (bound : List Item) (a b : α) (p q : Progress)
      (hx : (repeatOn round bound a).exec p = (.ok b, q)) (hq : q.IsClean)
      (hclose : ClosesFirst q.rest) : p.IsClean ∧ ClosesFirst p.rest := by
    have hround {p r : Progress} {a : α} {c : Round α} (hx : (round a).exec p = (.ok c, r))
        (h : r.IsClean ∧ ClosesFirst r.rest) : p.IsClean ∧ ClosesFirst p.rest :=
      ⟨h.1.of_exec (hc a) hx, (hr a).closes hx h.1 h.2⟩
    induction bound generalizing a p with
    | nil =>
      obtain ⟨c, r, hc, hb⟩ := exec_bind_eq_ok.1 hx
      cases c with
      | more c => cases hb
      | done c =>
        cases hb
        exact hround hc ⟨hq, hclose⟩
    | cons i bound ih =>
      obtain ⟨c, r, hc, hb⟩ := exec_bind_eq_ok.1 hx
      cases c with
      | more c => exact hround hc (ih c r hb)
      | done c =>
        cases hb
        exact hround hc ⟨hq, hclose⟩
  exact ⟨fun {p b q} hx hq hclose => (hall p.ahead a b p q hx hq hclose).2⟩

instance (t : Token) [IsTrue t.isNoParenthesis] (item : Parser α) [ClosesThrough H item]
    [Composed H.limit item] : ClosesThrough H (separated t item) := by
  rw [separated_eq]
  unfold separatedRound
  infer_instance

/-! ## Formal parameters -/

instance (s : TokenSet) : ClosesThrough H (identList s) := by
  unfold identList
  infer_instance

instance (s : TokenSet) (parts : List Node) : ClosesThrough H (qualidentRound s parts) := by
  unfold qualidentRound
  infer_instance

instance (s : TokenSet) : ClosesThrough H (qualident s) := by
  unfold qualident
  infer_instance

instance (s : TokenSet) : ClosesThrough H (parameterType s) := by
  unfold parameterType
  infer_instance

instance (s : TokenSet) : ClosesThrough H (formalType s) := by
  unfold formalType
  refine token_bind fun t => ?_
  split
  · exact .inr ⟨rfl, _, rfl, fun _ => inferInstance⟩
  · exact .inr ⟨rfl, _, rfl, fun _ => inferInstance⟩
  · exact .inl inferInstance

instance : ClosesThrough H parameterMode := by
  unfold parameterMode
  refine token_bind fun t => ?_
  split
  · exact .inr ⟨rfl, _, rfl, fun _ => inferInstance⟩
  · exact .inr ⟨rfl, _, rfl, fun _ => inferInstance⟩
  · exact .inl inferInstance

instance : ClosesThrough H formalParameters := by
  unfold formalParameters
  infer_instance

instance (o : ParseOptions) (found : List Node) :
    ClosesThrough H (semicolonRound o ∅ (tokens [.rParen]) formalParameters found) := by
  unfold semicolonRound
  infer_instance

end ClosesThrough

/-! ## The list of formal parameters -/

namespace Grammar

variable {H : Omission} {Q : Hindsight Node}

instance : Approaches H Q formalParameters := by
  have {Q : Hindsight Kind} : Approaches H Q parameterMode := by
    unfold parameterMode
    refine .token_bind fun t => ?_
    split <;> infer_instance
  unfold formalParameters
  infer_instance

instance : Opens H noSeparator Q formalParameters := by
  have : Opens H noSeparator (.inFrontOf noSeparator) parameterMode := by
    unfold parameterMode
    refine .token_bind fun t => ?_
    split
    · exact .inl (by decide)
    · exact .inl (by decide)
    · exact .inr inferInstance
  unfold formalParameters
  infer_instance

instance : Bridges H Q formalParameters := .of_approaches

/-- Behind formal parameters comes the parenthesis that closes the list. -/
def behindFormalParameters : Hindsight (Round (List Node))
  | .more _, q => ClosesFirst q.rest
  | .done _, q => q.lookahead.token ∈ tokens [.rParen]

/-- Where the list goes on, the parenthesis that closes it is ahead, so a semicolon is not missing
there. -/
theorem bridges_formalParametersRound (o : ParseOptions) (found : List Node) :
    Bridges H behindFormalParameters
      (semicolonRound o ∅ (tokens [.rParen]) formalParameters found) := by
  rw [semicolonRound_eq]
  refine Bridges.bind_of (Q := .any) inferInstance (fun node => bridges_behindItem ?_ ?_ ?_)
    (fun _ => inferInstance) fun _ _ _ _ _ _ _ => trivial
  · intro p p' h _ ht
    have hbehind : ∀ t : Token, t ∈ behindSeparator → t ∉ tokens [.rParen] := by
      intro t
      cases t <;> decide
    exact hbehind _ h.token_right ht
  · intro p p' h ht hQ
    have hQ : ClosesFirst p.advance.rest := hQ
    rw [Progress.rest_advance h.rest_left] at hQ
    exact absurd hQ (H.outside (h.lookahead_left ▸ ht))
  · intro p p' h ht
    have hsep : ∀ t : Token, t ∈ separators → t ∉ tokens [.rParen] := by
      intro t
      cases t <;> decide
    exact hsep _ h.token_left ht

theorem closesFirst_of_mem {p : Progress} (h : p.lookahead.token ∈ tokens [.rParen]) :
    ClosesFirst p.rest :=
  closesFirst_of_token_eq (List.mem_singleton.1 (TokenBitmap.mem_ofList.1 h))

instance (o : ParseOptions) : EndsInFrontOf H
    (semicolonList o ∅ (tokens [.rParen]) formalParameters) (tokens [.rParen]) := by
  have hempty (t : Token) : t ∉ (∅ : TokenSet) :=
    Bool.eq_false_iff.1 (TokenBitmap.contains_empty t)
  refine ⟨.map (.loop (bridges_formalParametersRound o) (fun _ => inferInstance)
    (consuming_semicolonRound o _ (n := 0) inferInstance (.of_false hempty)) (fun _ _ => id) ?_ [])
    fun _ _ => id⟩
  exact fun _ _ _ _ hx hq ht => ClosesThrough.closes (H := H) hx hq (closesFirst_of_mem ht)

instance (o : ParseOptions) : Bridges H Q (formalParameterList o) := by
  unfold formalParameterList
  infer_instance

end Grammar

end Modula
