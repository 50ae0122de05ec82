import Mathlib.Logic.Relation
import Modula.Proofs.Exec

/-!
# The steps of reading

Whatever a rule does to the progress of a unit, it does in small steps: the next symbol is
consumed, something is reported at it, or something is counted. A property that each step keeps is
kept by every run, so the facts of this module are stated for one step first and then for any number
of them.

The end of the source is the last symbol of a unit and no other symbol of it; a progress with this
property is called closed.
-/

namespace Modula

open Modula.Parser

/-- A fault of the grammar that reading recovers from. -/
def Code.isRecoverable (c : Code) : Bool :=
  c.phase = .syntactic ∧ c ≠ .nestingTooDeep ∧ c ≠ .invalidStart

namespace Progress

/-! ## The end of the source -/

/-- The last one of a symbol and the items behind it is the end of the source, and no other. -/
def EndsAfter : Symbol → List Item → Prop
  | s, [] => s.token = .endOfFile
  | s, i :: ahead => s.token ≠ .endOfFile ∧ EndsAfter i.symbol ahead

/-- The end of the source comes last, and only there. -/
def Closed (p : Progress) : Prop := EndsAfter p.lookahead p.ahead

theorem Closed.ahead_eq_nil_iff {p : Progress} (h : p.Closed) :
    p.ahead = [] ↔ p.lookahead.token = .endOfFile := by
  unfold Closed at h
  cases hp : p.ahead with
  | nil => rw [hp] at h; simpa [EndsAfter] using h
  | cons i ahead => rw [hp] at h; simpa using h.1

theorem Closed.advance {p : Progress} (h : p.Closed) : p.advance.Closed := by
  unfold Closed Progress.advance at *
  cases hp : p.ahead with
  | nil => simpa [hp] using h
  | cons i ahead => rw [hp] at h; exact h.2

@[simp]
theorem closed_report {p : Progress} {d : Diagnostic} : (p.report d).Closed ↔ p.Closed := Iff.rfl

@[simp]
theorem closed_count {p : Progress} {f : Statistics → Statistics} :
    (p.count f).Closed ↔ p.Closed := Iff.rfl

/-- Consuming a symbol leaves fewer symbols, except at the end of the source. -/
theorem Closed.length_ahead_advance {p : Progress} (h : p.Closed)
    (ht : p.lookahead.token ≠ .endOfFile) : p.advance.ahead.length < p.ahead.length := by
  have hne : p.ahead ≠ [] := fun hn => ht (h.ahead_eq_nil_iff.1 hn)
  have hpos : 0 < p.ahead.length := List.length_pos_iff.2 hne
  rw [ahead_advance, List.length_tail]
  omega

/-! ## Skipping -/

theorem skipTo_of_go {s : TokenSet} {p : Progress}
    (h : ¬(p.lookahead.token = .endOfFile ∨ s.contains p.lookahead.token ∨ p.ahead = [])) :
    p.skipTo s = p.advance.skipTo s := by
  rw [skipTo, if_neg h]

/-- What holds of the start and is kept by consuming a symbol holds behind a skip. -/
theorem skipTo_induction {motive : Progress → Prop} (s : TokenSet)
    (hstep : ∀ p, motive p → motive p.advance) (p : Progress) (hp : motive p) :
    motive (p.skipTo s) := by
  fun_induction skipTo s p with
  | case1 p h => exact hp
  | case2 p h ih => exact ih (hstep p hp)

/-- A skip ends at a member of the set or at the end of the source. -/
theorem Closed.token_skipTo {p : Progress} (h : p.Closed) (s : TokenSet) :
    (p.skipTo s).lookahead.token = .endOfFile ∨
      s.contains (p.skipTo s).lookahead.token = true := by
  fun_induction skipTo s p with
  | case1 p hs =>
    rcases hs with hs | hs | hs
    · exact .inl hs
    · exact .inr hs
    · exact .inl (h.ahead_eq_nil_iff.1 hs)
  | case2 p hs ih => exact ih h.advance

/-! ## Steps -/

/-- What a rule may report at a progress and then go on. -/
inductive Reportable (p : Progress) : Diagnostic → Prop where
  /-- The next symbol, where something else was expected. -/
  | surprise (e : Expected) : Reportable p (surprise p e)
  /-- An empty sequence in front of the next symbol. -/
  | missing (c : Code) (h : c = .emptyStatements ∨ c = .emptyFields) :
    Reportable p (faultBy c p.lookahead)
  /-- An opaque type where there must be none. -/
  | isOpaque : Reportable p (faultAt .opaqueOutsideDefinition p.lookahead)
  /-- A closing identifier with the wrong spelling. -/
  | closing (opening : Option Symbol) (d : Diagnostic)
    (h : closingFault? opening p.lookahead = some d) : Reportable p d
  /-- A semicolon in front of the next symbol, which closes something. -/
  | errant (semicolon : Symbol) (severity : Severity) :
    Reportable p { faultAt .errantSemicolon semicolon with
      severity := severity, found := p.lookahead.token }

theorem Reportable.isRecoverable {p : Progress} {d : Diagnostic} (h : Reportable p d) :
    d.code.isRecoverable = true := by
  cases h with
  | surprise e => rfl
  | missing c h => rcases h with rfl | rfl <;> rfl
  | isOpaque => rfl
  | closing opening d h =>
    unfold closingFault? at h
    split at h
    · cases h
    · split at h
      · cases h
      · cases h; rfl
  | errant semicolon severity => rfl

/-- One step of reading. -/
inductive Step : Progress → Progress → Prop where
  /-- The next symbol is consumed. -/
  | advance (p : Progress) : Step p p.advance
  /-- A fault is reported. -/
  | report {p : Progress} {d : Diagnostic} (h : Reportable p d) : Step p (p.report d)
  /-- Statements, declarations or procedures are counted. -/
  | count (p : Progress) (f : Statistics → Statistics) : Step p (p.count f)

/-- Any number of steps. -/
def Steps : Progress → Progress → Prop := Relation.ReflTransGen Step

namespace Steps

theorem refl (p : Progress) : Steps p p := Relation.ReflTransGen.refl

theorem trans {p q r : Progress} (hpq : Steps p q) (hqr : Steps q r) : Steps p r :=
  Relation.ReflTransGen.trans hpq hqr

theorem step {p q : Progress} (h : Step p q) : Steps p q := Relation.ReflTransGen.single h

/-- What holds of the start and is kept by every step holds at the end. -/
theorem invariant {p q : Progress} (h : Steps p q) {motive : Progress → Prop}
    (hstep : ∀ r s, Step r s → motive r → motive s) (hp : motive p) : motive q := by
  induction h with
  | refl => exact hp
  | tail _ hrs ih => exact hstep _ _ hrs ih

theorem skipTo (s : TokenSet) (p : Progress) : Steps p (p.skipTo s) :=
  skipTo_induction s (fun q hq => hq.trans (step (.advance q))) p (refl p)

theorem closed {p q : Progress} (h : Steps p q) (hp : p.Closed) : q.Closed := by
  refine h.invariant ?_ hp
  intro r s hrs hr
  cases hrs with
  | advance => exact hr.advance
  | report => exact hr
  | count => exact hr

/-- What is ahead at the end was ahead from the start. -/
theorem ahead_suffix {p q : Progress} (h : Steps p q) : q.ahead <:+ p.ahead := by
  refine h.invariant (motive := fun r => r.ahead <:+ p.ahead) ?_ (List.suffix_refl _)
  intro r s hrs hr
  cases hrs with
  | advance => rw [ahead_advance]; exact (List.tail_suffix _).trans hr
  | report => exact hr
  | count => exact hr

theorem length_ahead_le {p q : Progress} (h : Steps p q) : q.ahead.length ≤ p.ahead.length :=
  h.ahead_suffix.length_le

/-- As long as nothing is consumed, the next symbol stays the same. -/
theorem lookahead_eq {p q : Progress} (h : Steps p q) (hp : p.Closed)
    (hl : ¬q.ahead.length < p.ahead.length) : q.lookahead = p.lookahead := by
  refine (h.invariant (motive := fun r => r.Closed ∧ r.ahead.length ≤ p.ahead.length ∧
    (¬r.ahead.length < p.ahead.length → r.lookahead = p.lookahead)) ?_
    ⟨hp, Nat.le_refl _, fun _ => rfl⟩).2.2 hl
  rintro r s hrs ⟨hr, hle, heq⟩
  refine ⟨(step hrs).closed hr, Nat.le_trans (step hrs).length_ahead_le hle, ?_⟩
  intro hs
  cases hrs with
  | advance =>
    by_cases ht : r.lookahead.token = .endOfFile
    · have hn : r.ahead = [] := hr.ahead_eq_nil_iff.2 ht
      have hadv : r.advance = r := by rw [Progress.advance, hn]
      rw [hadv] at hs ⊢
      exact heq hs
    · have := hr.length_ahead_advance ht
      omega
  | report => exact heq hs
  | count => exact heq hs

end Steps

/-! ## Reports -/

theorem reports_grow_advance (p : Progress) : p.queue.toList <+: p.advance.queue.toList := by
  unfold advance
  split
  · exact List.prefix_refl _
  · rw [view, Queue.toList_append]
    exact List.prefix_append _ _

theorem reports_grow_report (p : Progress) (d : Diagnostic) :
    p.queue.toList <+: (p.report d).queue.toList := by
  rw [report, Queue.toList_push]
  exact List.prefix_append _ _

/-- No step takes a report back. -/
theorem Steps.reports_grow {p q : Progress} (h : p.Steps q) :
    p.queue.toList <+: q.queue.toList := by
  refine h.invariant (motive := fun r => p.queue.toList <+: r.queue.toList) ?_
    (List.prefix_refl _)
  intro r s hrs hr
  cases hrs with
  | advance => exact hr.trans r.reports_grow_advance
  | report => exact hr.trans (r.reports_grow_report _)
  | count => exact hr

/-- The number of faults recorded so far whose codes are of some class. -/
def recorded (class? : Code → Bool) (p : Progress) : Nat := p.queue.toList.countP (class? ·.code)

variable {class? : Code → Bool}

theorem recorded_report (p : Progress) (d : Diagnostic) :
    (p.report d).recorded class? = p.recorded class? + if class? d.code then 1 else 0 := by
  rw [recorded, report, Queue.toList_push, List.countP_append, List.countP_singleton]
  rfl

theorem recorded_le_advance (p : Progress) : p.recorded class? ≤ p.advance.recorded class? :=
  p.reports_grow_advance.sublist.countP_le

theorem Steps.recorded_le {p q : Progress} (h : p.Steps q) :
    p.recorded class? ≤ q.recorded class? :=
  h.reports_grow.sublist.countP_le

end Progress

end Modula
