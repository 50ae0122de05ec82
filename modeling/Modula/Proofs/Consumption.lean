import Modula.Proofs.Composed

/-!
# Rules that consume a symbol

A rule consumes where the next symbol is of some class if it never answers there without having
read a symbol. From this it follows that the repetitions of the grammar come to an end: a list goes
on behind a separator, which is consumed, or in front of a symbol that its item can start with, and
there the item consumes one.
-/

namespace Modula.Parser

variable {α β : Type} {n : Nat}

/-- Where the next token is one of `S`, the rule does not answer before it has consumed a
symbol. -/
def Consumes (S : Token → Prop) (m : Parser α) : Prop :=
  ∀ p a q, p.Closed → S p.lookahead.token → m.exec p = (.ok a, q) →
    q.ahead.length < p.ahead.length

namespace Consumes

variable {S T : Token → Prop}

theorem mono {m : Parser α} (h : Consumes T m) (hST : ∀ t, S t → T t) : Consumes S m := by
  intro p a q hp hS hm
  exact h p a q hp (hST _ hS) hm

/-- A rule that consumes does so whatever comes behind it. -/
theorem bind {m : Parser α} {k : α → Parser β} (h : Consumes S m)
    (hk : ∀ a, Composed n (k a)) : Consumes S (m >>= k) := by
  intro p b q hp hS hm
  obtain ⟨a, r, hr, hq⟩ := exec_bind_eq_ok.1 hm
  exact Nat.lt_of_le_of_lt ((hk a).steps hq).length_ahead_le (h p a r hp hS hr)

theorem map {m : Parser α} {f : α → β} (h : Consumes S m) : Consumes S (f <$> m) := by
  rw [← bind_pure_comp]
  exact h.bind fun a => .pure (n := 0) (f a)

/-- A round that goes on with what a rule has read. -/
theorem more {m : Parser α} {f : α → β} (h : Consumes S m) {p q : Progress} {b : β}
    (hp : p.Closed) (hS : S p.lookahead.token)
    (hm : (m >>= fun x => Pure.pure (Round.more (f x))).exec p = (.ok (.more b), q)) :
    q.ahead.length < p.ahead.length :=
  h.bind (fun x => .pure (n := 0) (Round.more (f x))) p _ q hp hS hm

theorem advance (hS : ∀ t, S t → t ≠ .endOfFile) : Consumes S advance := by
  intro p a q hp ht hm
  cases hm
  exact hp.length_ahead_advance (hS _ ht)

theorem leaf (k : Kind) (hS : ∀ t, S t → t ≠ .endOfFile) : Consumes S (leaf k) := by
  intro p a q hp ht hm
  cases hm
  exact hp.length_ahead_advance (hS _ ht)

/-- A skip consumes where it has not arrived yet. -/
theorem skipTo {s : TokenSet} (hS : ∀ t, S t → t ≠ .endOfFile ∧ t ∉ s) :
    Consumes S (skipTo s) := by
  intro p a q hp ht hm
  obtain ⟨hne, hns⟩ := hS _ ht
  have hahead : p.ahead ≠ [] := fun hn => hne (hp.ahead_eq_nil_iff.1 hn)
  have hgo : ¬(p.lookahead.token = .endOfFile ∨ s.contains p.lookahead.token ∨ p.ahead = []) := by
    rintro (h | h | h)
    · exact hne h
    · exact hns h
    · exact hahead h
  cases hm
  rw [Progress.skipTo_of_go hgo]
  exact Nat.lt_of_le_of_lt (Progress.Steps.skipTo s p.advance).length_ahead_le
    (hp.length_ahead_advance hne)

/-- A rule that has to consume only where the next token is the one that was just seen. -/
theorem token_bind {k : Token → Parser α} (h : ∀ t, S t → Consumes (· = t) (k t)) :
    Consumes S (token >>= k) := by
  intro p a q hp ht hm
  rw [exec_bind, exec_token, proceed_ok] at hm
  exact h _ ht p a q hp rfl hm

theorem ifAt {t : Token} {yes no : Parser α} (hy : S t → Consumes (· = t) yes)
    (hn : Consumes (fun u => S u ∧ u ≠ t) no) : Consumes S (ifAt t yes no) := by
  intro p a q hp hS hm
  rw [exec_ifAt] at hm
  split at hm
  · next ht => exact hy (ht ▸ hS) p a q hp ht hm
  · next ht => exact hn p a q hp ⟨hS, ht⟩ hm

theorem ifAtAny {s : TokenSet} {yes no : Parser α} (hy : Consumes (fun u => S u ∧ u ∈ s) yes)
    (hn : Consumes (fun u => S u ∧ u ∉ s) no) : Consumes S (ifAtAny s yes no) := by
  intro p a q hp hS hm
  rw [exec_ifAtAny] at hm
  split at hm
  · next ht => exact hy p a q hp ⟨hS, ht⟩ hm
  · next ht => exact hn p a q hp ⟨hS, ht⟩ hm

/-- Where a token of the set is missing, the symbols in front of the next stop are skipped. -/
theorem expectAny {s r : TokenSet} (hS : ∀ t, S t → t ≠ .endOfFile ∧ t ∉ r) :
    Consumes S (expectAny s r) := by
  refine ifAtAny (advance (S := fun u => S u ∧ u ∈ s) fun t ht => (hS t ht.1).1) ?_
  intro p a q hp ht hm
  rw [exec_bind, exec_unexpected, proceed_ok] at hm
  exact skipTo (S := S) hS (p.report _) a q hp ht.1 hm

/-- A rule that is asked to consume nowhere. -/
theorem of_false {m : Parser α} (h : ∀ t, ¬S t) : Consumes S m :=
  fun _ _ _ _ hS _ => absurd hS (h _)

end Consumes

/-- A rule that starts by consuming a symbol. -/
theorem composed_word {t : Token} (ht : t ≠ .endOfFile) {k : Unit → Parser β}
    (hk : ∀ u, Composed n (k u)) :
    Composed n (Parser.advance >>= k) ∧ Consumes (· = t) (Parser.advance >>= k) :=
  ⟨inferInstance, (Consumes.advance (by rintro u rfl; exact ht)).bind hk⟩

/-- Consuming a symbol leaves fewer symbols, whatever is read behind it. -/
theorem length_ahead_lt_of_advance {t : Token} (ht : t ≠ .endOfFile) {k : Unit → Parser β}
    (hk : ∀ u, Composed n (k u)) {p q : Progress} {b : β} (hp : p.Closed)
    (hpt : p.lookahead.token = t) (h : (Parser.advance >>= k).exec p = (.ok b, q)) :
    q.ahead.length < p.ahead.length :=
  (composed_word ht hk).2 p b q hp hpt h

/-! ## The bound of a repetition -/

/-- Goes on after a round. -/
def again (round : α → Parser (Round α)) : Round α → Parser α
  | .more a => loop round a
  | .done a => pure a

/-- Where every further round consumes a symbol, the bound of a repetition is not felt. -/
theorem exec_repeatOn_congr {round : α → Parser (Round α)} (hr : ∀ a, Composed n (round a))
    (hc : Consuming round) {bound bound' : List Item} {p : Progress} (hp : p.Closed)
    (h : p.ahead.length ≤ bound.length) (h' : p.ahead.length ≤ bound'.length) (a : α) :
    (repeatOn round bound a).exec p = (repeatOn round bound' a).exec p := by
  induction bound generalizing bound' p a with
  | nil =>
    have hzero : p.ahead.length = 0 := Nat.le_zero.1 h
    cases bound' with
    | nil => rfl
    | cons i bound' =>
      rw [repeatOn, repeatOn, exec_bind, exec_bind]
      rcases hx : (round a).exec p with ⟨f | ⟨b⟩ | ⟨b⟩, q⟩
      · rfl
      · have := hc a p b q hp hx
        omega
      · rfl
  | cons i bound ih =>
    rw [repeatOn, exec_bind]
    cases bound' with
    | nil =>
      rw [repeatOn, exec_bind]
      rcases hx : (round a).exec p with ⟨f | ⟨b⟩ | ⟨b⟩, q⟩
      · rfl
      · have := hc a p b q hp hx
        have := Nat.le_zero.1 h'
        omega
      · rfl
    | cons j bound' =>
      rw [repeatOn, exec_bind]
      rcases hx : (round a).exec p with ⟨f | ⟨b⟩ | ⟨b⟩, q⟩
      · rfl
      · have hlt := hc a p b q hp hx
        simp only [List.length_cons] at h h'
        exact ih (((hr a).steps hx).closed hp) (by omega) (by omega) b
      · rfl

/-- A repetition is a round and, if there may be another one, the repetition again. -/
theorem exec_loop_unroll {round : α → Parser (Round α)} (hr : ∀ a, Composed n (round a))
    (hc : Consuming round) {p : Progress} (hp : p.Closed) (a : α) :
    (loop round a).exec p = (round a >>= again round).exec p := by
  have hlong : (loop round a).exec p = (repeatOn round (default :: p.ahead) a).exec p := by
    rw [exec_loop]
    exact exec_repeatOn_congr hr hc hp (Nat.le_refl _) (Nat.le_succ _) a
  rw [hlong, repeatOn, exec_bind, exec_bind]
  rcases hx : (round a).exec p with ⟨f | ⟨b⟩ | ⟨b⟩, q⟩
  · rfl
  · have hlt := hc a p b q hp hx
    exact exec_repeatOn_congr hr hc (((hr a).steps hx).closed hp) (by omega) (Nat.le_refl _) b
  · rfl

/-! ## Repetition -/

/-- The first round of a repetition comes first. -/
theorem exec_loop_eq_ok {round : α → Parser (Round α)} (hr : ∀ a, Composed n (round a))
    {a b : α} {p q : Progress} (h : (loop round a).exec p = (.ok b, q)) :
    ∃ c r, (round a).exec p = (.ok c, r) ∧ r.Steps q := by
  have hrest : ∀ (bound : List Item) (c : α) (r : Progress),
      (repeatOn round bound c).exec r = (.ok b, q) → r.Steps q := by
    intro bound c r hc
    have := reaches_repeatOn (fun a p => (hr a).reaches p) bound c r
    rwa [hc] at this
  rw [exec_loop] at h
  cases hp : p.ahead with
  | nil =>
    rw [hp, repeatOn] at h
    obtain ⟨c, r, hc, hq⟩ := exec_bind_eq_ok.1 h
    refine ⟨c, r, hc, ?_⟩
    cases c with
    | more c => cases hq
    | done c => cases hq; exact .refl _
  | cons i bound =>
    rw [hp, repeatOn] at h
    obtain ⟨c, r, hc, hq⟩ := exec_bind_eq_ok.1 h
    refine ⟨c, r, hc, ?_⟩
    cases c with
    | more c => exact hrest bound c r hq
    | done c => cases hq; exact .refl _

theorem Consumes.loop {S : Token → Prop} {round : α → Parser (Round α)} {a : α}
    (hr : ∀ a, Composed n (round a)) (h : Consumes S (round a)) :
    Consumes S (loop round a) := by
  intro p b q hp hS hm
  obtain ⟨c, r, hc, hq⟩ := exec_loop_eq_ok hr hm
  exact Nat.lt_of_le_of_lt hq.length_ahead_le (h p c r hp hS hc)

/-- The round of `separated`. -/
def separatedRound (separator : Token) (item : Parser α) (found : List α) :
    Parser (Round (List α)) := do
  let found := (← item) :: found
  ifAt separator (do advance; return .more found) (return .done found)

theorem separated_eq (separator : Token) (item : Parser α) :
    separated separator item = List.reverse <$> loop (separatedRound separator item) [] := rfl

/-- The round of `whileAtAny`. -/
def whileRound (s : TokenSet) (item : Parser α) (found : List α) : Parser (Round (List α)) :=
  ifAtAny s (return .more ((← item) :: found)) (return .done found)

theorem whileAtAny_eq (s : TokenSet) (item : Parser α) :
    whileAtAny s item = List.reverse <$> loop (whileRound s item) [] := rfl

instance (separator : Token) (item : Parser α) [Composed n item] (found : List α) :
    Composed n (separatedRound separator item found) := by
  unfold separatedRound
  infer_instance

instance (s : TokenSet) (item : Parser α) [Composed n item] (found : List α) :
    Composed n (whileRound s item found) := by
  unfold whileRound
  infer_instance

/-- A round goes on only behind a separator, which it has consumed. -/
theorem consuming_separatedRound {separator : Token} (hsep : separator ≠ .endOfFile)
    {item : Parser α} (hi : Composed n item) : Consuming (separatedRound separator item) := by
  intro found p found' q hp h
  obtain ⟨a, r, ha, h⟩ := exec_bind_eq_ok.1 h
  have hr := hi.steps ha
  rw [exec_ifAt] at h
  split at h
  · next ht =>
    cases h
    have := (hr.closed hp).length_ahead_advance (ht ▸ hsep)
    exact Nat.lt_of_lt_of_le this hr.length_ahead_le
  · cases h

/-- A round goes on only behind an item, which has consumed a symbol. -/
theorem consuming_whileRound {s : TokenSet} {item : Parser α} (hi : Consumes (· ∈ s) item) :
    Consuming (whileRound s item) := by
  intro found p found' q hp h
  rw [whileRound, exec_ifAtAny] at h
  split at h
  · next ht =>
    obtain ⟨a, r, ha, h⟩ := exec_bind_eq_ok.1 h
    cases h
    exact hi p a _ hp ht ha
  · cases h

theorem Composed.separated {separator : Token} (hsep : separator ≠ .endOfFile) {item : Parser α}
    (hi : Composed n item) : Composed n (separated separator item) := by
  rw [separated_eq]
  have := Composed.loop (n := n) (separatedRound separator item) [] (fun _ => inferInstance)
    (consuming_separatedRound hsep hi)
  infer_instance

theorem Composed.whileAtAny {s : TokenSet} {item : Parser α} (hi : Composed n item)
    (hc : Consumes (· ∈ s) item) : Composed n (whileAtAny s item) := by
  rw [whileAtAny_eq]
  have := Composed.loop (n := n) (whileRound s item) [] (fun _ => inferInstance)
    (consuming_whileRound hc)
  infer_instance

theorem Consumes.separated {S : Token → Prop} {separator : Token} {item : Parser α}
    (hi : Composed n item) (h : Consumes S item) :
    Consumes S (separated separator item) := by
  rw [separated_eq]
  refine .map (.loop (n := n) (fun _ => inferInstance) ?_)
  exact h.bind (n := n) fun a => inferInstance

end Modula.Parser
