import Modula.Proofs.AlikeRules

/-!
# A missing separator

Two runs of the grammar are compared: one over symbols in which it finds no fault, and one over the
same symbols without one of the separators, a semicolon or `DO`. In front of the gap both runs see
the same symbols. At the gap the first run sees the separator and the second one the symbol behind
it. Behind the gap they see the same symbols again, and the second run has reported the separator as
missing.
-/

namespace Modula

open Modula.Parser Modula.Grammar

/-! ## Gaps -/

namespace Grammar

/-- The tokens of separators that may be missing. -/
def separators : TokenSet := tokens [.semicolon, .kwDo]

/-- Tokens that a separator may stand in front of. -/
def behindSeparator : TokenSet := importFollow ∪ statementStart

end Grammar

/-- No separator stands behind another one. -/
theorem Grammar.not_mem_behindSeparator {t : Token} (h : t ∈ separators) : t ∉ behindSeparator := by
  revert h
  cases t <;> decide

/-- A token that is no separator and stands behind none: where it is looked for and a separator is
missing, it is found neither with the separator nor without it. -/
@[reducible]
def Token.goesOn : Token → Bool
  | semicolon | kwDo | kwImport | kwFrom | kwConst | kwType | kwVar | kwProcedure | kwBegin | kwEnd
  | endOfFile | stdIdent | foreignIdent | malformedIdent | kwIf | kwCase | kwLoop | kwWhile
  | kwRepeat | kwFor | kwReturn | kwExit => false
  | _ => true

theorem Token.goesOn_iff {t : Token} : t.goesOn = true ↔ t ∉ separators ∧ t ∉ behindSeparator := by
  cases t <;> decide

/-- The next parenthesis among the symbols closes. -/
def ClosesFirst (w : List Symbol) : Prop :=
  (w.find? fun s => s.token = .lParen ∨ s.token = .rParen).map Symbol.token = some .rParen

/-- The token is no parenthesis. -/
@[reducible]
def Token.isNoParenthesis : Token → Bool
  | lParen | rParen => false
  | _ => true

theorem closesFirst_cons {s : Symbol} {w : List Symbol} (hs : s.token.isNoParenthesis = true) :
    ClosesFirst (s :: w) ↔ ClosesFirst w := by
  have hne : ¬(s.token = .lParen ∨ s.token = .rParen) := by
    rintro (h' | h') <;> rw [h'] at hs <;> cases hs
  unfold ClosesFirst
  rw [List.find?_cons_of_neg (by simpa using hne)]

theorem closesFirst_of_token_eq {s : Symbol} {w : List Symbol} (hs : s.token = .rParen) :
    ClosesFirst (s :: w) := by
  unfold ClosesFirst
  rw [List.find?_cons_of_pos (by simp [hs]), Option.map_some, hs]

/-- A separator that is missing, and what comes behind it. -/
structure Omission where
  separator : Symbol
  next : Symbol
  later : List Symbol
  /-- The limit on nesting. -/
  limit : Nat
  separates : separator.token ∈ separators
  next_mem : next.token ∈ behindSeparator
  /-- A semicolon that separates formal parameters is in front of the parenthesis that closes. -/
  outside : separator.token = .semicolon → ¬ClosesFirst (next :: later)

namespace Omission

variable (H : Omission)

/-- The report that the separator is missing. -/
def fault : Diagnostic :=
  { faultBy .unexpectedSymbol H.next with expected := Expected.token H.separator.token }

end Omission

/-! ## Points that correspond -/

/-- As many declarations, procedures and statements are counted. -/
structure Statistics.SameTallies (s t : Statistics) : Prop where
  declarations : s.declarations = t.declarations
  procedures : s.procedures = t.procedures
  statements : s.statements = t.statements

theorem Statistics.Tallies.sameTallies {f : Statistics → Statistics} (hf : Tallies f)
    {s t : Statistics} (h : s.SameTallies t) : (f s).SameTallies (f t) := by
  obtain ⟨m, n, k, rfl⟩ := hf
  exact ⟨congrArg (· + m) h.declarations, congrArg (· + n) h.procedures,
    congrArg (· + k) h.statements⟩

namespace Progress

/-- Nothing has been reported. -/
def IsClean (p : Progress) : Prop := p.queue.toList = []

/-- What comes into view brings no faults with it. -/
def IsQuiet (p : Progress) : Prop := ∀ i ∈ p.ahead, i.reports = []

theorem IsQuiet.queue_advance {p : Progress} (h : p.IsQuiet) : p.advance.queue = p.queue := by
  unfold Progress.advance
  split
  · rfl
  · next i ahead hi =>
    have hnil : i.reports = [] := h i (hi ▸ List.mem_cons_self)
    rw [view, hnil]
    rfl

theorem IsQuiet.advance {p : Progress} (h : p.IsQuiet) : p.advance.IsQuiet := by
  intro i hi
  rw [ahead_advance] at hi
  exact h i (List.mem_of_mem_tail hi)

/-- Nothing is skipped where skipping ends. -/
theorem skipTo_of_mem {s : TokenSet} {p : Progress} (h : p.lookahead.token ∈ s) :
    p.skipTo s = p := by
  rw [skipTo, if_pos (.inr (.inl h))]

theorem lookahead_of_rest_eq {p : Progress} {s : Symbol} {w : List Symbol} (h : p.rest = s :: w) :
    p.lookahead = s := (List.cons.inj h).1

theorem rest_advance {p : Progress} {s t : Symbol} {w : List Symbol} (h : p.rest = s :: t :: w) :
    p.advance.rest = t :: w := by
  have hahead : p.ahead.map Item.symbol = t :: w := (List.cons.inj h).2
  unfold Progress.advance
  cases hp : p.ahead with
  | nil => rw [hp] at hahead; cases hahead
  | cons i ahead =>
    rw [hp] at hahead
    exact hahead

end Progress

/-- Two points with nothing reported at the first one, and only this at the second one. -/
structure Progress.Even (ds : List Diagnostic) (p p' : Progress) : Prop where
  closed_left : p.Closed
  closed_right : p'.Closed
  quiet_left : p.IsQuiet
  quiet_right : p'.IsQuiet
  clean : p.IsClean
  reported : p'.queue.toList = ds
  tallies : p.queue.stats.SameTallies p'.queue.stats

theorem Progress.Even.advance {ds : List Diagnostic} {p p' : Progress} (h : Even ds p p') :
    Even ds p.advance p'.advance where
  closed_left := h.closed_left.advance
  closed_right := h.closed_right.advance
  quiet_left := h.quiet_left.advance
  quiet_right := h.quiet_right.advance
  clean := (congrArg Queue.toList h.quiet_left.queue_advance).trans h.clean
  reported := (congrArg Queue.toList h.quiet_right.queue_advance).trans h.reported
  tallies := by
    rw [h.quiet_left.queue_advance, h.quiet_right.queue_advance]
    exact h.tallies

theorem Progress.Even.count {ds : List Diagnostic} {p p' : Progress} (h : Even ds p p')
    {f : Statistics → Statistics} (hf : Statistics.Tallies f) : Even ds (p.count f) (p'.count f) :=
  ⟨h.closed_left, h.closed_right, h.quiet_left, h.quiet_right, h.clean, h.reported,
    hf.sameTallies h.tallies⟩

namespace Omission

variable {H : Omission} {p p' : Progress}

/-- Both runs see the same symbol next: it is in front of the gap or behind it. No `RETURN` is the
last symbol in front of the gap. -/
inductive Apart (H : Omission) (p p' : Progress) : Prop
  | before (s : Symbol) (front : List Symbol) (hfront : p.rest = s :: (front ++ H.separator ::
      H.next :: H.later)) (hfront' : p'.rest = s :: (front ++ H.next :: H.later))
    (hreturn : ((s :: front).getLast (List.cons_ne_nil _ _)).token ≠ .kwReturn)
    (heven : p.Even [] p')
  | behind (hrest : p.rest = p'.rest) (heven : p.Even [H.fault] p')

/-- The first run sees the separator next, and the second one what is behind it. -/
structure At (H : Omission) (p p' : Progress) : Prop where
  rest_left : p.rest = H.separator :: H.next :: H.later
  rest_right : p'.rest = H.next :: H.later
  even : p.Even [] p'

/-- The points correspond. -/
inductive Near (H : Omission) (p p' : Progress) : Prop
  | apart (h : H.Apart p p')
  | at (h : H.At p p')

theorem Apart.lookahead_eq (h : H.Apart p p') : p.lookahead = p'.lookahead := by
  cases h with
  | before s front hfront hfront' =>
    rw [Progress.lookahead_of_rest_eq hfront, Progress.lookahead_of_rest_eq hfront']
  | behind hrest => exact (List.cons.inj hrest).1

/-- Behind the next symbol the gap may come, but not behind `RETURN`. -/
theorem Apart.advance_or (h : H.Apart p p') : H.Apart p.advance p'.advance ∨
    H.At p.advance p'.advance ∧ p.lookahead.token ≠ .kwReturn := by
  cases h with
  | before s front hfront hfront' hreturn heven =>
    cases front with
    | nil =>
      refine .inr ⟨⟨Progress.rest_advance hfront, Progress.rest_advance hfront', heven.advance⟩, ?_⟩
      rw [Progress.lookahead_of_rest_eq hfront]
      exact hreturn
    | cons t front =>
      rw [List.getLast_cons_cons] at hreturn
      exact .inl (.before t front (Progress.rest_advance hfront)
        (Progress.rest_advance hfront') hreturn heven.advance)
  | behind hrest heven =>
    refine .inl (.behind ?_ heven.advance)
    have hahead : p.ahead.map Item.symbol = p'.ahead.map Item.symbol := (List.cons.inj hrest).2
    unfold Progress.advance
    cases hp : p.ahead with
    | nil =>
      rw [hp, List.map_nil, eq_comm, List.map_eq_nil_iff] at hahead
      rw [hahead]
      exact hrest
    | cons i ahead =>
      cases hp' : p'.ahead with
      | nil => rw [hp, hp'] at hahead; cases hahead
      | cons i' ahead' =>
        rw [hp, hp'] at hahead
        exact hahead

theorem Apart.advance (h : H.Apart p p') : H.Near p.advance p'.advance :=
  h.advance_or.elim .apart fun h => .at h.1

theorem Apart.advance_return (h : H.Apart p p') (ht : p.lookahead.token = .kwReturn) :
    H.Apart p.advance p'.advance := h.advance_or.resolve_right fun h => h.2 ht

theorem Near.count (h : H.Near p p') {f : Statistics → Statistics} (hf : Statistics.Tallies f) :
    H.Near (p.count f) (p'.count f) := by
  cases h with
  | apart h =>
    cases h with
    | before s front hfront hfront' hreturn heven =>
      exact .apart (.before s front hfront hfront' hreturn (heven.count hf))
    | behind hrest heven => exact .apart (.behind hrest (heven.count hf))
  | «at» h => exact .at ⟨h.rest_left, h.rest_right, h.even.count hf⟩

namespace At

theorem lookahead_left (h : H.At p p') : p.lookahead = H.separator :=
  Progress.lookahead_of_rest_eq h.rest_left

theorem lookahead_right (h : H.At p p') : p'.lookahead = H.next :=
  Progress.lookahead_of_rest_eq h.rest_right

theorem lookahead_advance (h : H.At p p') : p.advance.lookahead = p'.lookahead :=
  (Progress.lookahead_of_rest_eq (Progress.rest_advance h.rest_left)).trans
    h.lookahead_right.symm

/-- The separator is consumed, or reported as missing. -/
theorem pass (h : H.At p p') : H.Near p.advance (p'.report H.fault) := by
  have heven := h.even
  refine .apart (.behind ?_ ?_)
  · exact (Progress.rest_advance h.rest_left).trans h.rest_right.symm
  · exact {
      closed_left := heven.closed_left.advance
      closed_right := heven.closed_right
      quiet_left := heven.quiet_left.advance
      quiet_right := heven.quiet_right
      clean := (congrArg Queue.toList heven.quiet_left.queue_advance).trans heven.clean
      reported := by
        rw [Progress.report, Queue.toList_push, heven.reported]
        rfl
      tallies := by
        rw [heven.quiet_left.queue_advance]
        obtain ⟨hd, hp, hs⟩ := heven.tallies
        unfold Progress.report Queue.push Statistics.record
        split <;> exact ⟨hd, hp, hs⟩ }

end At

end Omission

end Modula
