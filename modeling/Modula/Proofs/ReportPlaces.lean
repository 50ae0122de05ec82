import Modula.Proofs.AccurateRules
import Modula.Proofs.Indifference
import Modula.Proofs.Pieces

/-!
# Where the faults of the grammar are

Every fault of the grammar is reported at a symbol of the source, and reports come in the order of
the symbols. The place of a report is the number of symbols that had been consumed when it was made,
except for an errant semicolon, which is reported when it has just been consumed.
-/

namespace Modula

open Modula.Parser Modula.Grammar

/-! ## Places -/

/-- What the report of a fault says about the symbol it points at and the symbols behind that. -/
def Diagnostic.Describes (d : Diagnostic) (s : Symbol) (behind : List Symbol) : Prop :=
  match d.code with
  | .unexpectedSymbol | .emptyStatements | .emptyFields | .invalidStart =>
    d.found = some s.token ∧ d.lexeme = s.lexeme?
  | .errantSemicolon =>
    s.token = .semicolon ∧ ∃ t later, behind = t :: later ∧ d.found = some t.token
  | .closingMismatch => s.token ∈ identStart ∧ d.lexeme = some s.text
  | .opaqueOutsideDefinition => s.token = .kwOpaque
  | _ => True

/-- The report points at the symbol at the place of the row. -/
def Diagnostic.PointsAt (w : List Symbol) (d : Diagnostic) (i : Nat) : Prop :=
  ∃ earlier s behind, w = earlier ++ s :: behind ∧ earlier.length = i ∧
    d.line = s.line ∧ d.column = s.column ∧ d.Describes s behind

/-- The reports point at symbols of the row, in its order, and at none behind the place. -/
def PointUpTo (w : List Symbol) (n : Nat) (ds : List Diagnostic) : Prop :=
  ∃ places : List Nat, places.Pairwise (· ≤ ·) ∧ (∀ i ∈ places, i ≤ n) ∧
    List.Forall₂ (Diagnostic.PointsAt w) ds places

namespace PointUpTo

variable {w : List Symbol} {n : Nat} {ds : List Diagnostic}

theorem mono {m : Nat} (h : PointUpTo w n ds) (hnm : n ≤ m) : PointUpTo w m ds := by
  obtain ⟨places, hsorted, hle, hplaces⟩ := h
  exact ⟨places, hsorted, fun i hi => Nat.le_trans (hle i hi) hnm, hplaces⟩

/-- The next report may point at the last place. -/
theorem push (h : PointUpTo w n ds) {d : Diagnostic} (hd : d.PointsAt w n) :
    PointUpTo w n (ds ++ [d]) := by
  obtain ⟨places, hsorted, hle, hplaces⟩ := h
  refine ⟨places ++ [n], ?_, fun i hi => ?_, List.rel_append hplaces (.cons hd .nil)⟩
  · refine List.pairwise_append.2 ⟨hsorted, List.pairwise_singleton _ _, fun i hi j hj => ?_⟩
    rw [List.mem_singleton.1 hj]
    exact hle i hi
  · rcases List.mem_append.1 hi with hi | hi
    · exact hle i hi
    · exact Nat.le_of_eq (List.mem_singleton.1 hi)

end PointUpTo

/-- The first report is not behind the second one. -/
def Diagnostic.NotBehind (d e : Diagnostic) : Prop :=
  d.line < e.line ∨ d.line = e.line ∧ d.column ≤ e.column

/-! ## Places along a reading -/

namespace Progress

/-- The faults of the grammar that have been recorded point at symbols of the row, in its order, and
at none behind the next symbol. -/
structure Placed (w : List Symbol) (p : Progress) : Prop where
  closed : p.Closed
  lexical : ∀ i ∈ p.ahead, OnlyLexical i.reports
  places : ∃ consumed : List Symbol, w = consumed ++ p.rest ∧
    PointUpTo w consumed.length (syntaxReports p.queue.toList)

variable {w : List Symbol} {p : Progress}

theorem syntaxReports_report (p : Progress) (d : Diagnostic) (hd : d.phase = .syntactic) :
    syntaxReports (p.report d).queue.toList = syntaxReports p.queue.toList ++ [d] := by
  rw [report, Queue.toList_push, syntaxReports, List.filter_append,
    List.filter_singleton, decide_eq_true hd]
  rfl

theorem syntaxReports_advance (h : ∀ i ∈ p.ahead, OnlyLexical i.reports) :
    syntaxReports p.advance.queue.toList = syntaxReports p.queue.toList := by
  unfold Progress.advance
  split
  · rfl
  · next i ahead hi =>
    rw [hi] at h
    rw [view, Queue.toList_append, syntaxReports, List.filter_append]
    change syntaxReports p.queue.toList ++ syntaxReports i.reports = _
    rw [(h i List.mem_cons_self).syntaxReports_eq_nil, List.append_nil]

theorem lexical_advance (h : ∀ i ∈ p.ahead, OnlyLexical i.reports) :
    ∀ i ∈ p.advance.ahead, OnlyLexical i.reports := by
  intro i hi
  rw [ahead_advance] at hi
  exact h i (List.mem_of_mem_tail hi)

/-- At the end of the source nothing is consumed. -/
theorem Closed.advance_eq (h : p.Closed) (ht : p.lookahead.token = .endOfFile) : p.advance = p := by
  rw [Progress.advance, h.ahead_eq_nil_iff.2 ht]

namespace Placed

theorem advance (h : p.Placed w) : p.advance.Placed w := by
  by_cases ht : p.lookahead.token = .endOfFile
  · rw [h.closed.advance_eq ht]
    exact h
  · obtain ⟨consumed, hw, hplaces⟩ := h.places
    refine ⟨h.closed.advance, lexical_advance h.lexical, consumed ++ [p.lookahead], ?_, ?_⟩
    · rw [hw, h.closed.rest_eq_cons ht, List.append_assoc, List.singleton_append]
    · rw [syntaxReports_advance h.lexical]
      exact hplaces.mono (by simp)

/-- A fault is reported at the next symbol. -/
theorem report (h : p.Placed w) {d : Diagnostic} (hd : d.phase = .syntactic)
    (hl : d.line = p.lookahead.line) (hc : d.column = p.lookahead.column)
    (hdescribes : d.Describes p.lookahead (p.ahead.map Item.symbol)) : (p.report d).Placed w := by
  obtain ⟨consumed, hw, hplaces⟩ := h.places
  refine ⟨h.closed, h.lexical, consumed, hw, ?_⟩
  rw [syntaxReports_report p d hd]
  exact hplaces.push ⟨consumed, p.lookahead, _, hw, rfl, hl, hc, hdescribes⟩

/-- A semicolon is consumed, and reported because of the symbol behind it. -/
theorem errant (h : p.Placed w) (v : Severity) (ht : p.lookahead.token = .semicolon) :
    (p.advance.report (p.errant v)).Placed w := by
  have hne : p.lookahead.token ≠ .endOfFile := by
    rw [ht]
    decide
  obtain ⟨consumed, hw, hplaces⟩ := h.places
  rw [h.closed.rest_eq_cons hne] at hw
  have hat : (p.errant v).PointsAt w consumed.length :=
    ⟨consumed, p.lookahead, _, hw, rfl, rfl, rfl, ht, _, _, rfl, rfl⟩
  refine ⟨h.closed.advance, lexical_advance h.lexical, consumed ++ [p.lookahead], ?_, ?_⟩
  · rw [hw, List.append_assoc, List.singleton_append]
    rfl
  · rw [syntaxReports_report _ (p.errant v) rfl, syntaxReports_advance h.lexical]
    exact (hplaces.push hat).mono (by simp)

theorem truthful (h : p.Placed w) {d : Diagnostic} (hd : p.Truthful d) : (p.report d).Placed w := by
  cases hd with
  | surprise e => exact h.report rfl rfl rfl ⟨rfl, rfl⟩
  | missing c hc => rcases hc with rfl | rfl <;> exact h.report rfl rfl rfl ⟨rfl, rfl⟩
  | isOpaque ht => exact h.report rfl rfl rfl ht
  | closing opening hs => exact h.report rfl rfl rfl ⟨hs, rfl⟩

theorem move (h : p.Placed w) {v : Severity} {q : Progress} (hpq : p.Move v q) : q.Placed w := by
  cases hpq with
  | advance => exact h.advance
  | report hd => exact h.truthful hd
  | errant ht => exact h.errant v ht
  | count => exact ⟨h.closed, h.lexical, h.places⟩

end Placed

/-- At the start of a unit only lexical faults have been recorded. -/
theorem placed_startOfUnit (o : LexicalOptions) (text : String) :
    (startOfUnit o text).Placed (tokenize o text).semantic := by
  have hnil : syntaxReports (startOfUnit o text).queue.toList = [] := by
    refine OnlyLexical.syntaxReports_eq_nil fun d hd => onlyLexical_reports o text d ?_
    rw [← foreseen_startOfUnit]
    exact List.mem_append_left _ hd
  refine ⟨closed_startOfUnit o text, (passing_startOfUnit o text).ahead, [],
    (rest_startOfUnit o text).symm, ?_⟩
  rw [hnil]
  exact ⟨[], .nil, nofun, .nil⟩

end Progress

/-! ## Positions -/

/-- The symbols stand one behind the other, the end of the source last. -/
theorem pairwise_before_semantic (o : LexicalOptions) (text : String) :
    (tokenize o text).semantic.Pairwise fun s t => s.position.Before t.position := by
  refine List.Pairwise.filter _ ?_
  rw [symbols_tokenize]
  refine List.pairwise_append.2 ⟨?_, List.pairwise_singleton _ _, fun s hs e he => ?_⟩
  · refine List.Pairwise.imp_of_mem ?_ (pairwise_symbolsOf o text)
    rintro s t hs - ⟨gap, hgap⟩
    rw [hgap]
    refine Position.before_after _ ?_
    simp [(stands_of_mem_symbolsOf hs).text_ne]
  · obtain ⟨-, hne, -, front, back, htext, hposition⟩ := stands_of_mem_symbolsOf hs
    rw [List.mem_singleton.1 he, hposition, htext, List.append_assoc, Position.after_append]
    exact Position.before_after _ (by simp [hne])

section

variable {w : List Symbol} (hw : w.Pairwise fun s t => s.position.Before t.position)

include hw

theorem Diagnostic.PointsAt.notBehind {d e : Diagnostic} {i j : Nat} (hd : d.PointsAt w i)
    (he : e.PointsAt w j) (hij : i ≤ j) : d.NotBehind e := by
  obtain ⟨earlier, s, behind, hs, hi, hdl, hdc, -⟩ := hd
  obtain ⟨earlier', t, behind', ht, hj, hel, hec, -⟩ := he
  unfold Diagnostic.NotBehind
  rw [hdl, hdc, hel, hec]
  rcases Nat.eq_or_lt_of_le hij with heq | hlt
  · have hsame := List.append_inj (hs.symm.trans ht) (hi.trans (heq.trans hj.symm))
    rw [(List.cons.inj hsame.2).1]
    exact .inr ⟨rfl, Nat.le_refl _⟩
  · have hfront : earlier ++ [s] <+: earlier' := by
      have hs' : earlier ++ [s] <+: w := ⟨behind, by rw [hs, List.append_assoc]; rfl⟩
      refine List.prefix_of_prefix_length_le hs' ⟨t :: behind', ht.symm⟩ ?_
      rw [List.length_append, List.length_singleton]
      omega
    obtain ⟨between, rfl⟩ := hfront
    rw [ht, List.append_assoc, List.append_assoc, List.singleton_append] at hw
    have hlater := (List.pairwise_cons.1 (List.pairwise_append.1 hw).2.1).1
    rcases (hlater t (by simp)).place with hline | ⟨hline, hcolumn⟩
    · exact .inl hline
    · exact .inr ⟨hline, Nat.le_of_lt hcolumn⟩

/-- Reports that point at symbols in order have positions in order. -/
theorem pairwise_notBehind {ds : List Diagnostic} {places : List Nat}
    (hplaces : List.Forall₂ (Diagnostic.PointsAt w) ds places)
    (hsorted : places.Pairwise (· ≤ ·)) : ds.Pairwise Diagnostic.NotBehind := by
  induction hplaces with
  | nil => exact .nil
  | @cons d i ds places hd hds ih =>
    obtain ⟨hle, hsorted⟩ := List.pairwise_cons.1 hsorted
    refine List.pairwise_cons.2 ⟨fun e he => ?_, ih hsorted⟩
    obtain ⟨k, hk, rfl⟩ := List.getElem_of_mem he
    have hk' : k < places.length := hds.length_eq ▸ hk
    exact hd.notBehind hw (hds.get hk hk') (hle _ (List.getElem_mem hk'))

end

/-- At the end of a parse, too, the faults of the grammar point at symbols. -/
theorem placed_of_parse (o : ParseOptions) (kind : UnitKind) (text : String) :
    ((compilationUnit o kind).exec (startOfUnit o.lexical text)).2.Placed
      (tokenize o.lexical text).semantic := by
  have hp := Progress.placed_startOfUnit o.lexical text
  exact compilationUnit_invariant (o := o) kind hp (fun _ _ hrs hr => hr.move hrs)
    (fun _ hr => hr.report rfl rfl rfl trivial) fun _ => hp.report rfl rfl rfl ⟨rfl, rfl⟩

/-- Every fault of the grammar is reported at a symbol of the source, tree or no tree, and the
reports come in the order of the symbols. An unexpected symbol, an empty sequence or a false start
is reported with the token that is there and its lexeme, an errant semicolon with the token behind
it, a closing identifier with its text, and an opaque type at its word. -/
theorem reports_point_in_order (o : ParseOptions) (kind : UnitKind) (text : String) :
    (∃ places : List Nat, places.Pairwise (· ≤ ·) ∧
      List.Forall₂ (Diagnostic.PointsAt (tokenize o.lexical text).semantic)
        (syntaxReports (parseReports o kind text)) places) ∧
    (syntaxReports (parseReports o kind text)).Pairwise Diagnostic.NotBehind := by
  obtain ⟨-, -, places, hsorted, -, hplaces⟩ := (placed_of_parse o kind text).places
  rw [parseReports_eq]
  exact ⟨⟨places, hsorted, hplaces⟩,
    pairwise_notBehind (pairwise_before_semantic o.lexical text) hplaces hsorted⟩

/-- The semicolon is reported when it has been consumed, and then the end of the source twice, in
place of a name and of a dot. -/
example : (parseReports {} .any "MODULE m; BEGIN RETURN; END").map (fun d => (d.code, d.column)) =
    [(.errantSemicolon, 23), (.unexpectedSymbol, 28), (.unexpectedSymbol, 28)] := by
  decide +kernel

end Modula
