import Modula.Proofs.Consumption
import Modula.Proofs.Shape

/-!
# What rules answer

A rule yields what is said of its answer. What can be said depends on whether something was missed
on the way: then parts may be replaced by the placeholder, and this is reported. So a rule that
reported nothing of the kind answers a tree without gaps.
-/

namespace Modula

/-- A fault that leaves a gap in the tree. -/
def Code.leavesGap (c : Code) : Bool :=
  c = .unexpectedSymbol || c = .emptyStatements || c = .emptyFields

/-- The number of faults recorded so far that leave gaps. -/
def Progress.gaps (p : Progress) : Nat := p.queue.toList.countP (·.code.leavesGap)

namespace Progress

theorem gaps_report (p : Progress) (d : Diagnostic) :
    (p.report d).gaps = p.gaps + if d.code.leavesGap then 1 else 0 := recorded_report p d

/-- No step takes a report back. -/
theorem Steps.gaps_le {p q : Progress} (h : p.Steps q) : p.gaps ≤ q.gaps := h.recorded_le

end Progress

namespace Parser

variable {α β : Type} {g : Bool}

/-- What is said of an answer of the rule. Of answers without gaps it is said only if no fault was
reported that leaves one. -/
def Yields (g : Bool) (P : α → Prop) (m : Parser α) : Prop :=
  ∀ p a q, m.exec p = (.ok a, q) →
    p.gaps ≤ q.gaps ∧ ((g = true → q.gaps = p.gaps) → P a)

/-- What is said of the answer of a round, whether or not there is another one. -/
def Round.Holds (P : α → Prop) : Round α → Prop
  | .more a => P a
  | .done a => P a

@[simp]
theorem Round.holds_more {P : α → Prop} {a : α} : (more a).Holds P ↔ P a := Iff.rfl

@[simp]
theorem Round.holds_done {P : α → Prop} {a : α} : (done a).Holds P ↔ P a := Iff.rfl

namespace Yields

variable {P : α → Prop} {Q : β → Prop}

/-- A rule that stops answers nothing. -/
theorem stop {s : Stop} : Yields g P (throw s) := fun _ _ _ => nofun

theorem pure {a : α} (h : P a) : Yields g P (pure a) := by
  intro p b q hm
  cases hm
  exact ⟨Nat.le_refl _, fun _ => h⟩

/-- What is said of the first answer may be used for the second. -/
theorem bind {m : Parser α} {k : α → Parser β} (hm : Yields g P m)
    (hk : ∀ a, Yields g (fun b => P a → Q b) (k a)) : Yields g Q (m >>= k) := by
  intro p b q h
  obtain ⟨a, r, hr, hq⟩ := exec_bind_eq_ok.1 h
  obtain ⟨hpr, ha⟩ := hm p a r hr
  obtain ⟨hrq, hb⟩ := hk a r b q hq
  refine ⟨Nat.le_trans hpr hrq, fun hg => ?_⟩
  have hleft : g = true → r.gaps = p.gaps := fun h => by have := hg h; omega
  have hright : g = true → q.gaps = r.gaps := fun h => by have := hg h; omega
  exact hb hright (ha hleft)

theorem imp {R : α → Prop} {m : Parser α} (h : Yields g P m) (hPR : ∀ a, P a → R a) :
    Yields g R m := by
  intro p a q hm
  obtain ⟨hle, ha⟩ := h p a q hm
  exact ⟨hle, fun hg => hPR a (ha hg)⟩

/-- A rule for one place is a rule for any place that is meant for more. -/
theorem within {r s : Slot} {m : Parser Node} (h : Yields g (Fits g r) m)
    (hrs : r.isWithin s = true) : Yields g (Fits g s) m :=
  h.imp fun _ ht => ht.within hrs

/-- What is known beforehand need not be used. -/
theorem weaken {A : Prop} {m : Parser α} (h : Yields g P m) : Yields g (fun a => A → P a) m :=
  h.imp fun _ ha _ => ha

theorem map {f : α → β} {m : Parser α} (h : Yields g (fun a => Q (f a)) m) :
    Yields g Q (f <$> m) := by
  rw [← bind_pure_comp]
  exact h.bind fun a => pure id

/-- A rule of which nothing is said. -/
theorem of_composed {n : Nat} {m : Parser α} (h : Composed n m) : Yields g (fun _ => True) m :=
  fun _ _ _ hm => ⟨(h.steps hm).gaps_le, fun _ => trivial⟩

/-- A first rule of which nothing is said. -/
theorem skip {m : Parser α} {k : α → Parser β} [hm : Composed 0 m] (hk : ∀ a, Yields g Q (k a)) :
    Yields g Q (m >>= k) :=
  (of_composed hm).bind fun a => (hk a).weaken

theorem ifAt {t : Token} {yes no : Parser α} (hy : Yields g P yes) (hn : Yields g P no) :
    Yields g P (ifAt t yes no) := by
  intro p a q hm
  rw [exec_ifAt] at hm
  split at hm
  · exact hy p a q hm
  · exact hn p a q hm

theorem ifAtAny {s : TokenSet} {yes no : Parser α} (hy : Yields g P yes) (hn : Yields g P no) :
    Yields g P (ifAtAny s yes no) := by
  intro p a q hm
  rw [exec_ifAtAny] at hm
  split at hm
  · exact hy p a q hm
  · exact hn p a q hm

/-! ## Gaps -/

/-- Behind a report of a gap nothing more needs to be said of trees without gaps. -/
theorem gap {m : Parser α} (h : ∀ p, ∃ a d, m.exec p = (.ok a, p.report d) ∧
    d.code.leavesGap = true) : Yields g (fun _ => g = false) m := by
  intro p a q hm
  obtain ⟨b, d, hb, hd⟩ := h p
  rw [hb] at hm
  cases hm
  have hgaps := Progress.gaps_report p d
  rw [hd, if_pos rfl] at hgaps
  refine ⟨by omega, fun hg => ?_⟩
  cases g with
  | false => rfl
  | true => have := hg rfl; omega

theorem unexpected (e : Expected) : Yields g (fun _ => g = false) (unexpected e) :=
  .gap fun p => ⟨(), surprise p e, rfl, rfl⟩

/-- A token that is missing leaves a gap. -/
theorem accept (t : Token) (s : TokenSet) :
    Yields g (fun found => found = false → g = false) (accept t s) := by
  refine .ifAt ?_ ?_
  · exact .skip fun _ => .pure fun h => by cases h
  · exact (unexpected _).bind fun _ => .skip fun _ => .pure fun h _ => h

/-- A choice by the next token. The last resort may expect a token that is not there. -/
theorem choose {k : Token → Parser α} (h : ∀ t, Yields g P (k t) ∨
    ∃ s r a, t ∉ s ∧ k t = (do expectAny s r; return a) ∧ (g = false → P a)) :
    Yields g P (token >>= k) := by
  intro p b q hm
  rw [exec_bind, exec_token, proceed_ok] at hm
  rcases h p.lookahead.token with hk | ⟨s, r, a, hs, hk, ha⟩
  · exact hk p b q hm
  · have hskip : Yields g P (do Parser.unexpected (.set s); Parser.skipTo r; return a) :=
      (unexpected _).bind fun _ => .skip fun _ => .pure ha
    refine hskip p b q ?_
    rw [hk, exec_bind, expectAny, exec_ifAtAny, if_neg (show ¬s.contains _ = true from hs),
      ← exec_bind] at hm
    rwa [bind_assoc] at hm

/-! ## Repetition -/

/-- A repetition, given what each round relies on, and what it establishes. -/
theorem loop {I : α → Prop} {round : α → Parser (Round α)} (hPI : ∀ a, P a → I a)
    (hr : ∀ a, Yields g (fun r => I a → r.Holds P) (round a)) (a : α) :
    Yields g (fun b => I a → P b) (loop round a) := by
  have hall (bound : List Item) (a : α) :
      Yields g (fun b => I a → P b) (repeatOn round bound a) := by
    induction bound generalizing a with
    | nil =>
      rw [repeatOn]
      refine (hr a).bind fun r => ?_
      cases r with
      | more b => exact .stop
      | done b => exact .pure fun hb ha => hb ha
    | cons i bound ih =>
      rw [repeatOn]
      refine (hr a).bind fun r => ?_
      cases r with
      | more b => exact (ih b).imp fun c hc hb ha => hc (hPI b (hb ha))
      | done b => exact .pure fun hb ha => hb ha
  intro p b q hm
  exact hall p.ahead a p b q hm

theorem separated {separator : Token} {item : Parser α} (hi : Yields g P item) :
    Yields g (fun as => ∀ a ∈ as, P a) (separated separator item) := by
  rw [separated_eq]
  refine .map (.imp (.loop (P := fun as => ∀ a ∈ as, P a) (I := fun as => ∀ a ∈ as, P a)
    (fun _ => id) (fun found => ?_) []) fun as h => ?_)
  · refine hi.bind fun a => .ifAt ?_ ?_
    · exact .skip fun _ => .pure fun ha hfound => List.forall_mem_cons.2 ⟨ha, hfound⟩
    · exact .pure fun ha hfound => List.forall_mem_cons.2 ⟨ha, hfound⟩
  · simpa using h

theorem whileAtAny {s : TokenSet} {item : Parser α} (hi : Yields g P item) :
    Yields g (fun as => ∀ a ∈ as, P a) (whileAtAny s item) := by
  rw [whileAtAny_eq]
  refine .map (.imp (.loop (P := fun as => ∀ a ∈ as, P a) (I := fun as => ∀ a ∈ as, P a)
    (fun _ => id) (fun found => ?_) []) fun as h => ?_)
  · refine .ifAtAny ?_ (.pure id)
    exact hi.bind fun a => .pure fun ha hfound => List.forall_mem_cons.2 ⟨ha, hfound⟩
  · simpa using h

end Yields

end Parser

end Modula
