import Modula.Proofs.Omissions

/-!
# Reading over a missing separator

A rule bridges an omission if its run over the symbols without the separator answers the same as its
run over all symbols, and comes to a point that corresponds. Whether a rule does may depend on what
comes behind it: a list that could go on with the symbol behind the gap bridges it only if the
separator is not the next symbol behind the list. This is known by hindsight, since the first run
goes on without a fault.

Like `Composed`, these are classes whose instances follow the text of a rule.
-/

namespace Modula

open Modula.Parser Modula.Grammar

/-! ## Sets of tokens -/

/-- The first set is part of the second one. -/
class Includes (S F : TokenSet) : Prop where
  subset : S.isSubsetOf F = true

theorem Includes.mem {S F : TokenSet} (h : Includes S F) {t : Token} (ht : t ∈ S) : t ∈ F :=
  TokenBitmap.isSubsetOf_iff.1 h.subset t ht

theorem Includes.token_mem {t : Token} {F : TokenSet} (h : Includes (tokens [t]) F) : t ∈ F :=
  h.mem (TokenBitmap.mem_ofList.2 (List.mem_singleton_self t))

theorem Includes.trans {S G F : TokenSet} (h : Includes S G) (hG : Includes G F) : Includes S F :=
  ⟨TokenBitmap.isSubsetOf_iff.2 fun _ ht => hG.mem (h.mem ht)⟩

instance (F : TokenSet) : Includes F F := ⟨TokenBitmap.isSubsetOf_iff.2 fun _ => id⟩

/-- Every token but a separator. -/
def noSeparator : TokenSet := .ofList (Token.all.filter fun t => !separators.contains t)

theorem mem_noSeparator {t : Token} : t ∈ noSeparator ↔ t ∉ separators := by
  cases t <;> decide

@[reducible]
def Token.isNoSeparator : Token → Bool
  | semicolon | kwDo => false
  | _ => true

instance (t : Token) [h : IsTrue t.isNoSeparator] : Includes (tokens [t]) noSeparator where
  subset := by
    have hall : ∀ t : Token, t.isNoSeparator = true →
        (tokens [t]).isSubsetOf noSeparator = true := by
      intro t
      cases t <;> decide
    exact hall t h.eq_true

/-! ## Rules that bridge an omission -/

/-- What comes behind a rule, given its answer. -/
abbrev Hindsight (α : Type) := α → Progress → Prop

namespace Hindsight

variable {α : Type}

/-- Whatever comes behind. -/
def any : Hindsight α := fun _ _ => True

/-- A token of the set comes behind. -/
def inFrontOf (F : TokenSet) : Hindsight α := fun _ q => q.lookahead.token ∈ F

/-- Something comes behind the last round. -/
def lastly (Q : Hindsight α) : Hindsight (Round α)
  | .more _, _ => True
  | .done a, q => Q a q

/-- The same, and a token of the set comes behind every other round. -/
def rounds (G : TokenSet) (Q : Hindsight α) : Hindsight (Round α)
  | .more _, q => q.lookahead.token ∈ G
  | .done a, q => Q a q

end Hindsight

/-- The rule comes in its second run to the same answer, and to a point that corresponds. -/
def Omission.Matches (H : Omission) {α : Type} (m : Parser α) (p' : Progress) (a : α)
    (q : Progress) : Prop :=
  ∃ q', m.exec p' = (.ok a, q') ∧ H.Near q q'

/-- Wherever the rule starts, a run of it without a fault is matched, if this comes behind it. -/
class Bridges (H : Omission) {α : Type} (Q : Hindsight α) (m : Parser α) : Prop where
  run : ∀ {p p' : Progress} {a : α} {q : Progress}, H.Near p p' → m.exec p = (.ok a, q) →
    q.IsClean → Q a q → H.Matches m p' a q

/-- The same, if the rule does not start at the omission. -/
class Approaches (H : Omission) {α : Type} (Q : Hindsight α) (m : Parser α) : Prop where
  run : ∀ {p p' : Progress} {a : α} {q : Progress}, H.Apart p p' → m.exec p = (.ok a, q) →
    q.IsClean → Q a q → H.Matches m p' a q

/-- A run of the rule without a fault starts at a token of the set, if this comes behind it. -/
class Opens (H : Omission) (F : TokenSet) {α : Type} (Q : Hindsight α) (m : Parser α) : Prop where
  token_mem : ∀ {p : Progress} {a : α} {q : Progress}, m.exec p = (.ok a, q) → q.IsClean →
    Q a q → p.lookahead.token ∈ F

/-- The rule bridges the omission if a token of the set comes behind it. -/
class EndsInFrontOf (H : Omission) {α : Type} (m : Parser α) (F : outParam TokenSet) : Prop where
  bridges : Bridges H (.inFrontOf F) m

/-- A run of the rule is never without a fault. -/
class Faulty (H : Omission) {α : Type} (m : Parser α) : Prop where
  not_clean : ∀ {p : Progress} {a : α} {q : Progress}, m.exec p = (.ok a, q) → ¬q.IsClean

/-- What a rule has reported is reported at the end. -/
theorem Progress.IsClean.of_exec {n : Nat} {α : Type} {m : Parser α} (hm : Composed n m)
    {p q : Progress} {a : α} (hq : q.IsClean) (h : m.exec p = (.ok a, q)) : p.IsClean := by
  have hgrow := (hm.reaches p).reports_grow
  rw [h] at hgrow
  exact List.prefix_nil.1 (hq ▸ hgrow)

theorem Progress.not_isClean_report {p : Progress} {d : Diagnostic} : ¬(p.report d).IsClean := by
  unfold IsClean Progress.report
  rw [Queue.toList_push]
  exact List.concat_ne_nil _ _

section

variable {H : Omission} {F G : TokenSet} {α β : Type} {Q : Hindsight α} {R : Hindsight β}

namespace Omission

theorem Apart.near {p p' : Progress} (h : H.Apart p p') : H.Near p p' := .apart h

theorem Near.even {p p' : Progress} (h : H.Near p p') : ∃ ds, p.Even ds p' := by
  cases h with
  | apart h =>
    cases h with
    | before _ _ _ _ _ heven => exact ⟨_, heven⟩
    | behind _ heven => exact ⟨_, heven⟩
  | «at» h => exact ⟨_, h.even⟩

theorem At.token_left {p p' : Progress} (h : H.At p p') : p.lookahead.token ∈ separators :=
  h.lookahead_left ▸ H.separates

/-- What is found where the separator was expected. -/
theorem At.surprise_right {p p' : Progress} (h : H.At p p') :
    surprise p' (.token p.lookahead.token) = H.fault := by
  rw [surprise, h.lookahead_left, h.lookahead_right]
  rfl

theorem At.token_right {p p' : Progress} (h : H.At p p') :
    p'.lookahead.token ∈ behindSeparator := h.lookahead_right ▸ H.next_mem

/-- What is looked for and goes on is found at neither side of the omission. -/
theorem At.token_ne {p p' : Progress} (h : H.At p p') {t : Token} (ht : t.goesOn = true) :
    p.lookahead.token ≠ t ∧ p'.lookahead.token ≠ t := by
  obtain ⟨hsep, hbehind⟩ := Token.goesOn_iff.1 ht
  exact ⟨fun h' => hsep (h' ▸ h.token_left), fun h' => hbehind (h' ▸ h.token_right)⟩

end Omission

instance (priority := low) (m : Parser α) [h : Bridges H Q m] : Approaches H Q m :=
  ⟨fun hp => h.run hp.near⟩

instance (m : Parser α) [h : EndsInFrontOf H m F] [hG : Includes G F] :
    Bridges H (.inFrontOf G) m where
  run hp hx hq hQ := h.bridges.run hp hx hq (hG.mem hQ)

/-- A run with a fault is not compared. -/
instance (m : Parser α) [h : Faulty H m] : Bridges H Q m where
  run _ hx hq _ := absurd hq (h.not_clean hx)

instance (m : Parser α) [h : Faulty H m] : Opens H F Q m where
  token_mem hx hq _ := absurd hq (h.not_clean hx)

instance (m : Parser α) (k : α → Parser β) [hm : Faulty H m] [hc : ∀ a, Composed H.limit (k a)] :
    Faulty H (m >>= k) where
  not_clean hx hq := by
    obtain ⟨a, r, ha, hb⟩ := exec_bind_eq_ok.1 hx
    exact hm.not_clean ha (hq.of_exec (hc a) hb)

theorem Bridges.of_any {m : Parser α} (h : Bridges H .any m) : Bridges H Q m :=
  ⟨fun hp hx hq _ => h.run hp hx hq trivial⟩

theorem Approaches.of_any {m : Parser α} (h : Approaches H .any m) : Approaches H Q m :=
  ⟨fun hp hx hq _ => h.run hp hx hq trivial⟩

theorem Opens.of_any {m : Parser α} (h : Opens H G .any m) (hG : Includes G F) :
    Opens H F Q m :=
  ⟨fun hx hq _ => hG.mem (h.token_mem hx hq trivial)⟩

/-- A rule that does not start at a separator need not start at the omission. -/
theorem Bridges.of_approaches {m : Parser α} [hm : Approaches H Q m]
    [ho : Opens H noSeparator Q m] : Bridges H Q m := by
  refine ⟨fun hp hx hq hQ => ?_⟩
  cases hp with
  | apart hp => exact hm.run hp hx hq hQ
  | «at» hp => exact absurd hp.token_left (mem_noSeparator.1 (ho.token_mem hx hq hQ))

/-! ### Answers and sequences -/

instance (a : α) : Bridges H Q (pure a : Parser α) where
  run hp hx _ _ := by
    cases hx
    exact ⟨_, rfl, hp⟩

theorem Omission.Matches.bind {m : Parser α} {k : α → Parser β} {p' q r : Progress} {a : α} {b : β}
    (hm : H.Matches m p' a r) (hk : Bridges H R (k a)) (hb : (k a).exec r = (.ok b, q))
    (hq : q.IsClean) (hR : R b q) : H.Matches (m >>= k) p' b q := by
  obtain ⟨r', ha', hr⟩ := hm
  obtain ⟨q', hb', hq'⟩ := hk.run hr hb hq hR
  exact ⟨q', exec_bind_eq_ok.2 ⟨a, r', ha', hb'⟩, hq'⟩

theorem Bridges.bind_of {m : Parser α} {k : α → Parser β} (hm : Bridges H Q m)
    (hk : ∀ a, Bridges H R (k a)) (hc : ∀ a, Composed H.limit (k a))
    (hQ : ∀ a b p q, (k a).exec p = (.ok b, q) → q.IsClean → R b q → Q a p) :
    Bridges H R (m >>= k) := by
  refine ⟨fun hp hx hq hR => ?_⟩
  obtain ⟨a, r, ha, hb⟩ := exec_bind_eq_ok.1 hx
  exact (hm.run hp ha (hq.of_exec (hc a) hb) (hQ _ _ _ _ hb hq hR)).bind (hk a) hb hq hR

theorem Approaches.bind_of {m : Parser α} {k : α → Parser β} (hm : Approaches H Q m)
    (hk : ∀ a, Bridges H R (k a)) (hc : ∀ a, Composed H.limit (k a))
    (hQ : ∀ a b p q, (k a).exec p = (.ok b, q) → q.IsClean → R b q → Q a p) :
    Approaches H R (m >>= k) := by
  refine ⟨fun hp hx hq hR => ?_⟩
  obtain ⟨a, r, ha, hb⟩ := exec_bind_eq_ok.1 hx
  exact (hm.run hp ha (hq.of_exec (hc a) hb) (hQ _ _ _ _ hb hq hR)).bind (hk a) hb hq hR

instance (m : Parser α) (k : α → Parser β) [hm : Bridges H .any m] [hk : ∀ a, Bridges H R (k a)]
    [hc : ∀ a, Composed H.limit (k a)] : Bridges H R (m >>= k) :=
  hm.bind_of hk hc fun _ _ _ _ _ _ _ => trivial

instance (m : Parser α) (k : α → Parser β) [hm : EndsInFrontOf H m F]
    [hk : ∀ a, Bridges H R (k a)] [ho : ∀ a, Opens H F R (k a)]
    [hc : ∀ a, Composed H.limit (k a)] : Bridges H R (m >>= k) :=
  hm.bridges.bind_of hk hc fun a _ _ _ => (ho a).token_mem

instance (m : Parser α) (k : α → Parser β) [hm : Approaches H .any m]
    [hk : ∀ a, Bridges H R (k a)] [hc : ∀ a, Composed H.limit (k a)] :
    Approaches H R (m >>= k) :=
  hm.bind_of hk hc fun _ _ _ _ _ _ _ => trivial

instance (m : Parser α) (f : α → β) [hm : Bridges H .any m] : Bridges H R (f <$> m) := by
  rw [← bind_pure_comp]
  infer_instance

theorem Opens.bind {m : Parser α} {k : α → Parser β} (hm : Opens H F .any m)
    (hc : ∀ a, Composed H.limit (k a)) : Opens H F R (m >>= k) := by
  refine ⟨fun hx hq _ => ?_⟩
  obtain ⟨a, r, ha, hb⟩ := exec_bind_eq_ok.1 hx
  exact hm.token_mem ha (hq.of_exec (hc a) hb) trivial

instance (m : Parser α) (k : α → Parser β) [hm : Opens H F .any m]
    [hc : ∀ a, Composed H.limit (k a)] : Opens H F R (m >>= k) := hm.bind hc

instance (priority := low) (m : Parser α) (k : α → Parser β) [hm : Opens H F (.inFrontOf F) m]
    [hk : ∀ a, Opens H F R (k a)] [hc : ∀ a, Composed H.limit (k a)] : Opens H F R (m >>= k) where
  token_mem hx hq hR := by
    obtain ⟨a, r, ha, hb⟩ := exec_bind_eq_ok.1 hx
    exact hm.token_mem ha (hq.of_exec (hc a) hb) ((hk a).token_mem hb hq hR)

theorem Opens.pure {a : α} (h : ∀ q, Q a q → q.lookahead.token ∈ F) :
    Opens H F Q (pure a : Parser α) where
  token_mem hx _ hQ := by
    cases hx
    exact h _ hQ

instance (a : α) [hF : Includes G F] : Opens H F (.inFrontOf G) (pure a : Parser α) :=
  .pure fun _ => hF.mem

instance (m : Parser α) (f : α → β) [hm : Opens H F .any m] : Opens H F R (f <$> m) := by
  rw [← bind_pure_comp]
  infer_instance

/-! ### Choices -/

instance (c : Prop) [Decidable c] (yes no : Parser α) [hy : Bridges H Q yes]
    [hn : Bridges H Q no] : Bridges H Q (if c then yes else no) := by
  split
  · exact hy
  · exact hn

instance (c : Prop) [Decidable c] (yes no : Parser α) [hy : Approaches H Q yes]
    [hn : Approaches H Q no] : Approaches H Q (if c then yes else no) := by
  split
  · exact hy
  · exact hn

instance (t : Token) (yes no : Parser α) [hy : Approaches H Q yes] [hn : Approaches H Q no] :
    Approaches H Q (ifAt t yes no) where
  run hp hx hq hQ := by
    unfold Omission.Matches
    rw [exec_ifAt] at hx ⊢
    rw [← hp.lookahead_eq]
    split at hx
    · next ht =>
      rw [if_pos ht]
      exact hy.run hp hx hq hQ
    · next ht =>
      rw [if_neg ht]
      exact hn.run hp hx hq hQ

instance (t : Token) [ht : IsTrue t.goesOn] (yes no : Parser α) [hy : Approaches H Q yes]
    [hn : Bridges H Q no] : Bridges H Q (ifAt t yes no) where
  run hp hx hq hQ := by
    cases hp with
    | apart hp => exact Approaches.run hp hx hq hQ
    | «at» hp =>
      obtain ⟨hleft, hright⟩ := hp.token_ne ht.eq_true
      unfold Omission.Matches
      rw [exec_ifAt, if_neg hleft] at hx
      rw [exec_ifAt, if_neg hright]
      exact hn.run (.at hp) hx hq hQ

instance (s : TokenSet) (yes no : Parser α) [hy : Approaches H Q yes] [hn : Approaches H Q no] :
    Approaches H Q (ifAtAny s yes no) where
  run hp hx hq hQ := by
    unfold Omission.Matches
    rw [exec_ifAtAny] at hx ⊢
    rw [← hp.lookahead_eq]
    split at hx
    · next hs =>
      rw [if_pos hs]
      exact hy.run hp hx hq hQ
    · next hs =>
      rw [if_neg hs]
      exact hn.run hp hx hq hQ

/-- A choice by the next token. -/
theorem Approaches.token_bind {k : Token → Parser α} (hk : ∀ t, Approaches H Q (k t)) :
    Approaches H Q (token >>= k) := by
  refine ⟨fun hp hx hq hQ => ?_⟩
  unfold Omission.Matches
  rw [exec_bind, exec_token, proceed_ok] at hx ⊢
  rw [← hp.lookahead_eq]
  exact (hk _).run hp hx hq hQ

/-- A choice by the next token that is the same for a separator and for what is behind it. -/
theorem Bridges.token_bind {k : Token → Parser α} (hk : ∀ t, Approaches H Q (k t))
    {u : Token} (hu : ∀ t, t.goesOn = false → k t = k u) (hku : Bridges H Q (k u)) :
    Bridges H Q (token >>= k) := by
  refine ⟨fun hp hx hq hQ => ?_⟩
  cases hp with
  | apart hp => exact (Approaches.token_bind hk).run hp hx hq hQ
  | «at» hp =>
    have hleft : k _ = k u := hu _ (Bool.eq_false_iff.2 fun h => (hp.token_ne h).1 rfl)
    have hright : k _ = k u := hu _ (Bool.eq_false_iff.2 fun h => (hp.token_ne h).2 rfl)
    unfold Omission.Matches
    rw [exec_bind, exec_token, proceed_ok, hleft] at hx
    rw [exec_bind, exec_token, proceed_ok, hright]
    exact hku.run (.at hp) hx hq hQ

instance (t : Token) [ht : Includes (tokens [t]) F] (yes no : Parser α) [hn : Opens H F Q no] :
    Opens H F Q (ifAt t yes no) where
  token_mem hx hq hQ := by
    rw [exec_ifAt] at hx
    split at hx
    · next h => exact h ▸ ht.token_mem
    · exact hn.token_mem hx hq hQ

instance (s : TokenSet) [hs : Includes s F] (yes no : Parser α) [hn : Opens H F Q no] :
    Opens H F Q (ifAtAny s yes no) where
  token_mem hx hq hQ := by
    rw [exec_ifAtAny] at hx
    split at hx
    · next h => exact hs.mem h
    · exact hn.token_mem hx hq hQ

theorem Opens.ifAtAny {s : TokenSet} {yes no : Parser α} [hy : Opens H F Q yes]
    [hn : Opens H F Q no] : Opens H F Q (ifAtAny s yes no) where
  token_mem hx hq hQ := by
    rw [exec_ifAtAny] at hx
    split at hx
    · exact hy.token_mem hx hq hQ
    · exact hn.token_mem hx hq hQ

/-- A choice by the next token, which is one of the set unless the choice says so. -/
theorem Opens.token_bind {k : Token → Parser α} (hk : ∀ t, t ∈ F ∨ Opens H F Q (k t)) :
    Opens H F Q (token >>= k) where
  token_mem hx hq hQ := by
    rw [exec_bind, exec_token, proceed_ok] at hx
    rcases hk _ with ht | hk
    · exact ht
    · exact hk.token_mem hx hq hQ

/-! ### Operations -/

/-- Operations that answer the same where the next symbol is the same. -/
theorem Approaches.of_exec {m : Parser α} (h : ∀ p p', H.Apart p p' → ∃ a q q',
    m.exec p = (.ok a, q) ∧ m.exec p' = (.ok a, q') ∧ H.Near q q') : Approaches H Q m := by
  refine ⟨fun hp hx _ _ => ?_⟩
  obtain ⟨a, q, q', hm, hm', hq⟩ := h _ _ hp
  rw [hx] at hm
  cases hm
  exact ⟨q', hm', hq⟩

instance {Q : Hindsight Unit} : Approaches H Q Parser.advance :=
  .of_exec fun _ _ hp => ⟨_, _, _, rfl, rfl, hp.advance⟩

instance {Q : Hindsight Symbol} : Approaches H Q next :=
  .of_exec fun _ _ hp => ⟨_, _, _, rfl, by rw [hp.lookahead_eq]; rfl, hp.advance⟩

instance (k : Kind) {Q : Hindsight Node} : Approaches H Q (leaf k) :=
  .of_exec fun _ _ hp => ⟨_, _, _, rfl, by rw [hp.lookahead_eq]; rfl, hp.advance⟩

theorem Bridges.count {f : Statistics → Statistics} (hf : Statistics.Tallies f)
    {Q : Hindsight Unit} : Bridges H Q (Parser.count f) where
  run hp hx _ _ := by
    cases hx
    exact ⟨_, rfl, hp.count hf⟩

/-- Reporting is a fault. -/
theorem Faulty.of_report {m : Parser α} (h : ∀ p, ∃ a d, m.exec p = (.ok a, p.report d)) :
    Faulty H m := by
  refine ⟨fun {p a q} hx => ?_⟩
  obtain ⟨b, d, hm⟩ := h p
  rw [hx] at hm
  cases hm
  exact Progress.not_isClean_report

instance (e : Expected) : Faulty H (unexpected e) := .of_report fun _ => ⟨_, _, rfl⟩

instance (o : ParseOptions) (s : Symbol) : Faulty H (reportErrant o s) :=
  .of_report fun _ => ⟨_, _, rfl⟩

instance (c : Code) : Faulty H (missingItems c) := .of_report fun _ => ⟨_, _, rfl⟩

instance {f : Statistics → Statistics} (k : Unit → Parser β) [hk : ∀ a, Opens H F R (k a)] :
    Opens H F R (Parser.count f >>= k) where
  token_mem {p b q} hx hq hR := by
    obtain ⟨a, r, ha, hb⟩ := exec_bind_eq_ok.1 hx
    cases ha
    exact (hk ()).token_mem (p := p.count f) hb hq hR

/-! ### Matching -/

instance (t : Token) (s : TokenSet) {Q : Hindsight Bool} : Approaches H Q (accept t s) := by
  unfold accept
  infer_instance

instance (t : Token) [Includes (tokens [t]) F] (s : TokenSet) {Q : Hindsight Bool} :
    Opens H F Q (accept t s) := by
  unfold accept
  infer_instance

instance (t : Token) [IsTrue t.isNoSeparator] (s : TokenSet) {Q : Hindsight Bool} :
    Bridges H Q (accept t s) := .of_approaches

instance (t : Token) (s : TokenSet) {Q : Hindsight Unit} : Approaches H Q (expect t s) := by
  rw [expect_eq]
  infer_instance

instance (t : Token) [Includes (tokens [t]) F] (s : TokenSet) {Q : Hindsight Unit} :
    Opens H F Q (expect t s) := by
  rw [expect_eq]
  infer_instance

instance (t : Token) [IsTrue t.isNoSeparator] (s : TokenSet) {Q : Hindsight Unit} :
    Bridges H Q (expect t s) := .of_approaches

/-- Where a token is expected it comes next, or something else is reported and skipped. -/
theorem expect_eq_ifAt (t : Token) (s : TokenSet) :
    expect t s = ifAt t Parser.advance (do unexpected (.token t); Parser.skipTo s) := by
  rw [expect_eq, accept, ifAt_bind]
  simp only [bind_assoc, pure_bind]
  rfl

/-- Where the separator is missing, nothing is skipped if what is behind it may stand there. -/
theorem bridges_expect (t : Token) (s : TokenSet) : Bridges H (.inFrontOf s) (expect t s) := by
  refine ⟨fun {p p' a q} hp hx hq hQ => ?_⟩
  cases hp with
  | apart hp => exact Approaches.run hp hx hq hQ
  | «at» hp =>
    rw [expect_eq_ifAt, exec_ifAt] at hx
    split at hx
    · next ht =>
      cases hx
      have hne : p'.lookahead.token ≠ t := fun h' =>
        not_mem_behindSeparator hp.token_left (ht ▸ h' ▸ hp.token_right)
      have hstop : (p'.report H.fault).skipTo s = p'.report H.fault := by
        refine Progress.skipTo_of_mem ?_
        change p'.lookahead.token ∈ s
        exact hp.lookahead_advance ▸ hQ
      refine ⟨p'.report H.fault, ?_, hp.pass⟩
      rw [expect_eq_ifAt, exec_ifAt, if_neg hne, exec_bind, exec_unexpected, proceed_ok,
        exec_skipTo, ← ht, hp.surprise_right, hstop]
    · exact absurd hq (Faulty.not_clean (H := H) hx)

instance (s : TokenSet) : EndsInFrontOf H (expect .semicolon s) s := ⟨bridges_expect .semicolon s⟩

instance (s : TokenSet) : EndsInFrontOf H (expect .kwDo s) s := ⟨bridges_expect .kwDo s⟩

instance (s r : TokenSet) {Q : Hindsight Unit} : Approaches H Q (expectAny s r) := by
  unfold expectAny
  infer_instance

instance (s r : TokenSet) [Includes s F] {Q : Hindsight Unit} : Opens H F Q (expectAny s r) := by
  unfold expectAny
  infer_instance

instance (s : TokenSet) {Q : Hindsight Node} : Approaches H Q (ident s) := by
  unfold ident
  infer_instance

instance (s : TokenSet) [Includes identStart F] {Q : Hindsight Node} : Opens H F Q (ident s) := by
  unfold ident
  infer_instance

instance : Includes identStart noSeparator := ⟨by decide⟩

instance (s : TokenSet) {Q : Hindsight Node} : Bridges H Q (ident s) := .of_approaches

instance (opening : Option Symbol) (s : TokenSet) {Q : Hindsight Unit} :
    Approaches H Q (closing opening s) := by
  have hclose : Approaches H Q (do noteClosing opening; Parser.advance) := by
    refine ⟨fun {p p' a q} hp hx hq _ => ?_⟩
    unfold Omission.Matches
    rw [exec_bind, exec_noteClosing, proceed_ok, exec_advance] at hx ⊢
    rw [← hp.lookahead_eq]
    cases hx
    cases hfault : closingFault? opening p.lookahead with
    | none => exact ⟨_, rfl, hp.advance⟩
    | some d =>
      rw [hfault] at hq
      have hclean := hq.of_exec (n := 0) (p := p.report d) .advance rfl
      exact absurd hclean Progress.not_isClean_report
  rw [closing_eq]
  infer_instance

instance (opening : Option Symbol) (s : TokenSet) [Includes identStart F] {Q : Hindsight Unit} :
    Opens H F Q (closing opening s) := by
  unfold closing
  infer_instance

instance (opening : Option Symbol) (s : TokenSet) {Q : Hindsight Unit} :
    Bridges H Q (closing opening s) := .of_approaches

/-! ### Repetition -/

/-- A repetition bridges the omission if its rounds do, given what comes behind each of them. -/
theorem Bridges.loop {round : α → Parser (Round α)} {S : Hindsight (Round α)}
    (hr : ∀ a, Bridges H S (round a)) (hc : ∀ a, Composed H.limit (round a))
    (hcon : Consuming round) (hdone : ∀ b q, Q b q → S (.done b) q)
    (hmore : ∀ b c r q, (loop round b).exec r = (.ok c, q) → q.IsClean → Q c q → S (.more b) r)
    (a : α) : Bridges H Q (loop round a) := by
  refine ⟨fun {p p' b q} hp hx hq hQ => ?_⟩
  -- The rounds of the first run are followed, each of which has consumed a symbol.
  induction hn : p.ahead.length using Nat.strongRecOn generalizing a p p' with
  | ind n ih =>
    obtain ⟨ds, heven⟩ := hp.even
    unfold Omission.Matches
    rw [exec_loop_unroll hc hcon heven.closed_left] at hx
    rw [exec_loop_unroll hc hcon heven.closed_right]
    obtain ⟨c, r, hround, hrest⟩ := exec_bind_eq_ok.1 hx
    cases c with
    | done c =>
      cases hrest
      obtain ⟨q', hq', hnear⟩ := (hr a).run hp hround hq (hdone _ _ hQ)
      exact ⟨q', exec_bind_eq_ok.2 ⟨_, q', hq', rfl⟩, hnear⟩
    | more c =>
      have hclean : r.IsClean := hq.of_exec (.loop round c hc hcon) hrest
      obtain ⟨r', hr', hnear⟩ := (hr a).run hp hround hclean (hmore c b r q hrest hq hQ)
      have hlt : r.ahead.length < n := hn ▸ hcon a p c r heven.closed_left hround
      obtain ⟨q', hq', hnear'⟩ := ih r.ahead.length hlt c hnear hrest rfl
      exact ⟨q', exec_bind_eq_ok.2 ⟨_, r', hr', hq'⟩, hnear'⟩

/-- Rounds that bridge the omission whatever comes behind them. -/
theorem Bridges.loop_any {round : α → Parser (Round α)} (hr : ∀ a, Bridges H .any (round a))
    (hc : ∀ a, Composed H.limit (round a)) (hcon : Consuming round) (a : α) :
    Bridges H Q (Parser.loop round a) :=
  .loop (S := .any) hr hc hcon (fun _ _ _ => trivial) (fun _ _ _ _ _ _ _ => trivial) a

theorem exec_loop_of_done {round : α → Parser (Round α)} {a b : α} {p q : Progress}
    (h : (round a).exec p = (.ok (.done b), q)) : (loop round a).exec p = (.ok b, q) := by
  rw [exec_loop]
  cases p.ahead with
  | nil => exact exec_bind_eq_ok.2 ⟨_, q, h, rfl⟩
  | cons i ahead => exact exec_bind_eq_ok.2 ⟨_, q, h, rfl⟩

/-- A repetition starts where its first round does. -/
theorem Opens.loop {round : α → Parser (Round α)} {a : α} (hr : Opens H F (.lastly Q) (round a))
    (hc : ∀ a, Composed H.limit (round a)) : Opens H F Q (loop round a) where
  token_mem hx hq hQ := by
    obtain ⟨c, r, hround, hsteps⟩ := exec_loop_eq_ok hc hx
    have hclean : r.IsClean := List.prefix_nil.1 (hq ▸ hsteps.reports_grow)
    cases c with
    | more c => exact hr.token_mem hround hclean trivial
    | done c =>
      rw [exec_loop_of_done hround] at hx
      cases hx
      exact hr.token_mem hround hq hQ

theorem Bridges.map {f : α → β} {m : Parser α} (h : Bridges H Q m)
    (hQ : ∀ a q, R (f a) q → Q a q) : Bridges H R (f <$> m) := by
  rw [← bind_pure_comp]
  exact h.bind_of (fun _ => inferInstance) (fun _ => inferInstance) fun _ _ _ _ hx _ hR => by
    cases hx
    exact hQ _ _ hR

theorem Opens.map {f : α → β} {m : Parser α} (h : Opens H F (.inFrontOf G) m) :
    Opens H F (.inFrontOf G) (f <$> m) := by
  rw [← bind_pure_comp]
  refine ⟨fun hx hq hR => ?_⟩
  obtain ⟨a, r, ha, hb⟩ := exec_bind_eq_ok.1 hx
  cases hb
  exact h.token_mem ha hq hR

section

variable {s : TokenSet} {item : Parser α}

/-- A list ends where no other item starts. -/
theorem opens_whileLoop (hc : Composed H.limit item) (hs : Includes s F) (hG : Includes G F)
    (found : List α) : Opens H F (.inFrontOf G) (loop (whileRound s item) found) := by
  refine .loop ?_ fun _ => inferInstance
  have : Opens H F (.lastly (.inFrontOf G)) (pure (.done found) : Parser (Round (List α))) :=
    .pure fun _ => hG.mem
  unfold whileRound
  infer_instance

theorem opens_whileAtAny (hc : Composed H.limit item) (hs : Includes s F) (hG : Includes G F) :
    Opens H F (.inFrontOf G) (whileAtAny s item) := (opens_whileLoop hc hs hG []).map

theorem bridges_whileAtAny (hi : Approaches H (.inFrontOf F) item) (hc : Composed H.limit item)
    (hcon : Consumes (· ∈ s) item) (hs : Includes s F) (hG : Includes G F)
    (hF : Includes F noSeparator) : Bridges H (.inFrontOf G) (whileAtAny s item) := by
  rw [whileAtAny_eq]
  refine .map (.loop (S := .rounds F (.inFrontOf G)) (fun found => ?_) (fun _ => inferInstance)
    (consuming_whileRound hcon) (fun _ _ => id) (fun b _ _ _ hx hq hQ => ?_) []) fun _ _ => id
  · have hyes : Approaches H (.rounds F (.inFrontOf G))
        (item >>= fun a => pure (.more (a :: found))) :=
      hi.bind_of (fun _ => inferInstance) (fun _ => inferInstance) fun _ _ _ _ hx _ hR => by
        cases hx
        exact hR
    have hno : Opens H noSeparator (.rounds F (.inFrontOf G))
        (pure (.done found) : Parser (Round (List α))) := .pure fun _ h => hF.mem (hG.mem h)
    have : Includes s noSeparator := hs.trans hF
    unfold whileRound
    exact .of_approaches
  · exact (opens_whileLoop hc hs hG b).token_mem hx hq hQ

end

section

variable {t : Token} [ht : IsTrue t.goesOn] {item : Parser α} [Composed H.limit item]

theorem consuming_separatedRound_of_goesOn {n : Nat} (ht : t.goesOn = true)
    (hi : Composed n item) : Consuming (separatedRound t item) :=
  consuming_separatedRound (by rintro rfl; cases ht) hi

instance [Bridges H .any item] {Q : Hindsight (List α)} : Bridges H Q (separated t item) := by
  have (found : List α) : Bridges H .any (separatedRound t item found) := by
    unfold separatedRound
    infer_instance
  have : Bridges H .any (loop (separatedRound t item) []) :=
    .loop_any this (fun _ => inferInstance)
      (consuming_separatedRound_of_goesOn (n := H.limit) ht.eq_true inferInstance) []
  rw [separated_eq]
  infer_instance

instance [Opens H F .any item] {Q : Hindsight (List α)} : Opens H F Q (separated t item) := by
  have : Opens H F .any (loop (separatedRound t item) []) :=
    .loop (by unfold separatedRound; infer_instance) fun _ => inferInstance
  rw [separated_eq]
  infer_instance

/-- The last item of a list comes in front of what the list comes in front of, and every other one
in front of a separator. -/
theorem bridges_separated_of_ends [EndsInFrontOf H item F] [Includes (tokens [t]) F]
    [hG : Includes G F] : Bridges H (.inFrontOf G) (separated t item) := by
  rw [separated_eq]
  refine .map (.loop (S := .lastly (.inFrontOf G)) (fun found => ?_) (fun _ => inferInstance)
    (consuming_separatedRound_of_goesOn (n := H.limit) ht.eq_true inferInstance) (fun _ _ => id)
    (fun _ _ _ _ _ _ _ => trivial) []) fun _ _ => id
  have (a : α) : Opens H F (.lastly (.inFrontOf G))
      (pure (.done (a :: found)) : Parser (Round (List α))) := .pure fun _ => hG.mem
  unfold separatedRound
  infer_instance

end

/-! ### Lists with semicolons -/

section

variable {o : ParseOptions} {start closers : TokenSet} {item : Parser Node}

/-- A semicolon that is missing is reported if the symbol behind it starts an item. A list does not
end at the omission, nor does one that goes on there end in the second run. -/
theorem bridges_behindItem {found : List Node} {S : Hindsight (Round (List Node))}
    (hmore : ∀ {p p'}, H.At p p' → S (.more found) p → p'.lookahead.token ∉ closers)
    (hnext : ∀ {p p'}, H.At p p' → p.lookahead.token = .semicolon → S (.more found) p.advance →
      p'.lookahead.token ∈ start)
    (hdone : ∀ {p p'}, H.At p p' → ¬S (.done found) p) :
    Bridges H S (behindItem o start closers found) := by
  have hbehind (s : Symbol) : Bridges H S
      (ifAtAny closers (do reportErrant o s; return .done found) (return .more found)) := by
    refine ⟨fun {p p' a q} hp hx hq hQ => ?_⟩
    cases hp with
    | apart hp => exact Approaches.run hp hx hq hQ
    | «at» hp =>
      rw [exec_ifAtAny] at hx
      split at hx
      · exact absurd hq (Faulty.not_clean (H := H) hx)
      · cases hx
        have hopen : ¬closers.contains p'.lookahead.token = true := hmore hp hQ
        refine ⟨p', ?_, .at hp⟩
        rw [exec_ifAtAny, if_neg hopen]
        rfl
  unfold behindItem
  refine ⟨fun {p p' a q} hp hx hq hQ => ?_⟩
  cases hp with
  | apart hp => exact Approaches.run hp hx hq hQ
  | «at» hp =>
    rw [exec_ifAt] at hx
    split at hx
    · next ht =>
      rw [exec_bind, exec_next, proceed_ok, exec_ifAtAny] at hx
      split at hx
      · exact absurd hq (Faulty.not_clean (H := H) hx)
      · cases hx
        have hstart : start.contains p'.lookahead.token = true := hnext hp ht hQ
        have hne : p'.lookahead.token ≠ .semicolon := fun h' =>
          not_mem_behindSeparator hp.token_left (ht ▸ h' ▸ hp.token_right)
        refine ⟨p'.report H.fault, ?_, hp.pass⟩
        rw [exec_ifAt, if_neg hne, exec_ifAtAny, if_pos hstart, exec_bind, exec_unexpected,
          proceed_ok, ← ht, hp.surprise_right]
        rfl
    · rw [exec_ifAtAny] at hx
      split at hx
      · exact absurd hq (Faulty.not_clean (H := H) hx)
      · cases hx
        exact absurd hQ (hdone hp)

theorem opens_semicolonLoop (hc : Composed H.limit item) (ho : Opens H start .any item)
    {Q : Hindsight (List Node)} (found : List Node) :
    Opens H start Q (loop (semicolonRound o start closers item) found) := by
  refine .loop ?_ fun _ => inferInstance
  unfold semicolonRound
  infer_instance

theorem bridges_semicolonList (hi : Bridges H .any item) (hc : Composed H.limit item)
    (hcon : Consumes (· ∈ start) item) (ho : Opens H start .any item)
    (hclosers : Includes closers noSeparator) (hstart : Includes start noSeparator) :
    Bridges H (.inFrontOf closers) (semicolonList o start closers item) := by
  refine .map (.loop (S := .rounds start (.inFrontOf closers)) (fun found => ?_)
    (fun _ => inferInstance) (consuming_semicolonRound o closers hc hcon) (fun _ _ => id)
    (fun b _ _ _ hx hq _ => (opens_semicolonLoop (Q := .any) hc ho b).token_mem hx hq trivial) [])
    fun _ _ => id
  have hnot {p p' : Progress} (h : H.At p p') {s : TokenSet} (hs : Includes s noSeparator) :
      p.lookahead.token ∉ s := fun ht => mem_noSeparator.1 (hs.mem ht) h.token_left
  exact hi.bind_of
    (fun _ => bridges_behindItem (fun h hQ => absurd hQ (hnot h hstart))
      (fun h _ hQ => h.lookahead_advance ▸ hQ) fun h => hnot h hclosers)
    (fun _ => inferInstance) fun _ _ _ _ _ _ _ => trivial

/-- A sequence that may not be empty starts where an item does, and not where it would end. -/
theorem bridges_sequence (c : Code) (f : List Node → Node) (hi : Bridges H .any item)
    (hc : Composed H.limit item) (hcon : Consumes (· ∈ start) item) (ho : Opens H start .any item)
    (hclosers : Includes closers noSeparator) (hstart : Includes start noSeparator) :
    EndsInFrontOf H
        (ifAtAny closers (missingItems c) (do return f (← semicolonList o start closers item)))
        closers ∧
      ∀ Q, Opens H start Q
        (ifAtAny closers (missingItems c)
          (do return f (← semicolonList o start closers item))) := by
  have hlist : EndsInFrontOf H (semicolonList o start closers item) closers :=
    ⟨bridges_semicolonList hi hc hcon ho hclosers hstart⟩
  have hopens (Q : Hindsight Node) : Opens H start Q
      (ifAtAny closers (missingItems c) (do return f (← semicolonList o start closers item))) := by
    have : Opens H start .any (loop (semicolonRound o start closers item) []) :=
      opens_semicolonLoop hc ho []
    have : Opens H start Q (do return f (← semicolonList o start closers item)) := by
      unfold semicolonList
      infer_instance
    exact .ifAtAny
  have : Opens H noSeparator (.inFrontOf closers)
      (ifAtAny closers (missingItems c) (do return f (← semicolonList o start closers item))) :=
    (hopens .any).of_any hstart
  exact ⟨⟨.of_approaches⟩, hopens⟩

end

end

end Modula
