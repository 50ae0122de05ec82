import Modula.Proofs.TracksExpressions

/-!
# Statements track the grammar
-/

namespace Modula.Grammar

open Modula.Parser

variable {d : Dialect} {k n : Nat} {o : ParseOptions} {call : Call} (h : CallTracks d k n call)
include h

theorem tracks_statementSequence :
    Tracks d n Anywhere Nonterminal.statementSequence.follow (.rule .statementSequence)
      (statementSequence o call) := by
  have hstatements : Tracks d n Anywhere statementsEnd
      (.spareList d .semicolon (.rule .statement))
      (semicolonList o statementStart statementsEnd (call .statement)) :=
    tracks_semicolonList (h.reliable.composed .statement) (h.reliable.consumes .statement)
      (h.tracks .statement) rfl (by decide) (by decide) (by decide)
      (by decide) (by decide)
  refine .rule ?_
  unfold statementSequence
  rw [← bind_pure (missingItems .emptyStatements)]
  exact tracks_sequence (fun p => ⟨.empty, _, rfl, rfl, Code.noConfusion⟩) (fun _ => .pure _) rfl
    (by decide) (by decide) (hstatements.last _)

theorem tracks_assignmentOrCall :
    Tracks d (n + 1) Anywhere Nonterminal.assignmentOrCall.follow (.rule .assignmentOrCall)
      (assignmentOrCall call) := by
  refine .rule ?_
  unfold assignmentOrCall
  refine (tracks_designator h).seq (by decide) fun designator => .token fun t => ?_
  split
  · refine .present (.left (.behindWord (by decide) fun _ => ?_) (by rintro t rfl; decide))
      (by rintro t rfl; decide)
    exact ((h.tracks .expression).before (by decide)).last _
  · exact .present (.right ((tracks_actualParameters h).last _) (by decide))
      (by decide)
  · refine .absent ?_
    rintro t rfl
    revert t
    decide

/-! ## Branches -/

theorem tracks_thenBranch :
    Tracks d n Anywhere Nonterminal.statementSequence.follow
      (.seq (.word .kwThen) (.rule .statementSequence)) (thenBranch o call) := by
  unfold thenBranch
  exact .acceptThen (by decide) (tracks_statementSequence h) fun p => List.prefix_refl _

theorem tracks_elseBranch :
    Tracks d n Anywhere (tokens [.kwEnd])
      (.option (.chain [.word .kwElse, .rule .statementSequence])) (elseBranch o call) := by
  unfold elseBranch
  exact .optionalAt (by decide) (by decide)
    ((tracks_statementSequence h).before (by decide))

theorem tracks_elsifBranch :
    Tracks d n (· ∈ tokens [.kwElsif]) Nonterminal.statementSequence.follow
      (.chain [.word .kwElsif, .rule .expression, .word .kwThen, .rule .statementSequence])
      (elsifBranch o call) := by
  unfold elsifBranch
  refine Tracks.within (.whenAt (S := (· = .kwElsif)) (.behindWord (by decide) fun _ => ?_)
    (by decide)) (Nat.le_succ n)
  refine (h.tracks .expression).seq (by decide) fun condition => ?_
  exact (tracks_thenBranch h).last _

theorem tracks_ifStatement :
    Tracks d (n + 1) (· = .kwIf) Nonterminal.ifStatement.follow (.rule .ifStatement)
      (ifStatement o call) := by
  have := h.reliable
  have helsifs : Tracks d n Anywhere (tokens [.kwElse, .kwEnd])
      (.many (.chain [.word .kwElsif, .rule .expression, .word .kwThen, .rule .statementSequence]))
      (whileAtAny (tokens [.kwElsif]) (elsifBranch o call)) :=
    .whileAtAny (k := k) (by decide) rfl (by decide) inferInstance
      (consumes_elsifBranch k o call) (tracks_elsifBranch h) (by decide)
      (by decide)
  refine .rule ?_
  unfold ifStatement
  refine .behindWord (by decide) fun _ => (h.tracks .expression).seq (by decide) fun c => ?_
  refine .congr ?_ (Ebnf.same_seq_assoc _ _ _)
  refine (tracks_thenBranch h).seq (by decide) fun body => ?_
  refine helsifs.seq (by decide) fun elsifs => ?_
  refine (tracks_elseBranch h).seq (by decide) fun otherwise => ?_
  exact (Tracks.expect (by decide) _).last _

theorem tracks_caseBranch :
    Tracks d n Anywhere Nonterminal.caseBranch.follow (.rule .caseBranch) (caseBranch o call) := by
  refine .rule ?_
  unfold caseBranch
  refine (tracks_caseLabelList h).seq (by decide) fun labels =>
    .expectThen (by decide) fun _ => ?_
  exact (tracks_statementSequence h).last _

/-- The branches behind the first one. -/
theorem tracks_laterBranches (branch : Node) (found : List Node) :
    Tracks d n Anywhere (tokens [.kwElse, .kwEnd])
      (.many (.seq (.word .bar) (.rule .caseBranch)))
      (loop (caseRound o call) (branch :: found)) := by
  have := h.reliable
  refine Tracks.loop (I := fun found => found ≠ []) (k := k) (fun _ => inferInstance)
    (consuming_caseRound k o) ?_ _ (List.cons_ne_nil _ _)
  intro m hm hlater found hfound
  have hempty : ¬found.isEmpty = true := by simpa using hfound
  refine .congr ?_ Ebnf.same_many.symm
  unfold caseRound
  rw [if_neg hempty, ifAt_bind]
  refine .ifAt (.present (.congr ?_ (Ebnf.same_seq_assoc _ _ _).symm) (by rintro t rfl; decide))
    (.absent (by decide))
  simp only [bind_assoc, pure_bind, again]
  refine .behindWord (by decide) fun _ => ?_
  exact ((tracks_caseBranch h).within (Nat.le_of_lt hm)).seq (by decide) fun branch =>
    hlater _ (List.cons_ne_nil _ _)

theorem tracks_caseBranches :
    Tracks d n Anywhere (tokens [.kwElse, .kwEnd])
      (.option (.seq (.option (.word .bar)) (.list .bar (.rule .caseBranch))))
      (loop (caseRound o call) []) := by
  have := h.reliable
  have hbranches : Tracks d n Anywhere (tokens [.kwElse, .kwEnd]) (.list .bar (.rule .caseBranch))
      (caseBranch o call >>= fun branch => loop (caseRound o call) [branch]) :=
    (tracks_caseBranch h).seq (by decide) fun branch => tracks_laterBranches h branch []
  refine .firstRound (k := k) (fun _ => inferInstance) (consuming_caseRound k o) ?_
  unfold caseRound
  rw [if_pos List.isEmpty_nil, ifAt_bind, ifAtAny_bind]
  simp only [bind_assoc, pure_bind, again]
  refine .ifAt (.present (.congr ?_ (Ebnf.same_option_seq _ _).symm) (by rintro t rfl; decide))
    (.ifAtAny (.present (.congr ?_ (Ebnf.same_option_seq _ _).symm) (by decide))
      (.absent (by decide)))
  · refine .right ?_ (by decide)
    exact (Tracks.behindWord (by decide) fun _ => hbranches).within (Nat.le_succ n)
  · exact .left (hbranches.whenAt fun _ _ => trivial) (by decide)

theorem tracks_caseStatement :
    Tracks d (n + 1) (· = .kwCase) Nonterminal.caseStatement.follow (.rule .caseStatement)
      (caseStatement o call) := by
  refine .rule ?_
  unfold caseStatement
  refine .behindWord (by decide) fun _ => ?_
  refine (h.tracks .expression).seq (by decide) fun selector =>
    .expectThen (by decide) fun _ => ?_
  refine (tracks_caseBranches h).seq (by decide) fun branches => ?_
  refine (tracks_elseBranch h).seq (by decide) fun otherwise => ?_
  exact (Tracks.expect (by decide) _).last _

/-! ## Loops -/

theorem tracks_loopStatement :
    Tracks d (n + 1) (· = .kwLoop) Nonterminal.loopStatement.follow (.rule .loopStatement)
      (loopStatement o call) := by
  refine .rule ?_
  unfold loopStatement
  refine .behindWord (by decide) fun _ => ?_
  exact (tracks_statementSequence h).seq (by decide) fun body =>
    (Tracks.expect (by decide) _).last _

theorem tracks_whileStatement :
    Tracks d (n + 1) (· = .kwWhile) Nonterminal.whileStatement.follow (.rule .whileStatement)
      (whileStatement o call) := by
  refine .rule ?_
  unfold whileStatement
  refine .behindWord (by decide) fun _ => ?_
  refine (h.tracks .expression).seq (by decide) fun condition =>
    .expectThen (by decide) fun _ => ?_
  exact (tracks_statementSequence h).seq (by decide) fun body =>
    (Tracks.expect (by decide) _).last _

theorem tracks_repeatStatement :
    Tracks d (n + 1) (· = .kwRepeat) Nonterminal.repeatStatement.follow (.rule .repeatStatement)
      (repeatStatement o call) := by
  refine .rule ?_
  unfold repeatStatement
  refine .behindWord (by decide) fun _ => ?_
  refine (tracks_statementSequence h).seq (by decide) fun body =>
    .expectThen (by decide) fun _ => ?_
  exact (h.tracks .expression).last _

theorem tracks_forStatement :
    Tracks d (n + 1) (· = .kwFor) Nonterminal.forStatement.follow (.rule .forStatement)
      (forStatement o call) := by
  refine .rule ?_
  unfold forStatement
  refine .behindWord (by decide) fun _ => .identThen fun control => ?_
  refine .expectThen (by decide) fun _ => (h.tracks .expression).seq (by decide) fun first => ?_
  refine .expectThen (by decide) fun _ => (h.tracks .expression).seq (by decide) fun last => ?_
  refine .optionalThen (by decide) (h.tracks .expression) (by decide) (by decide)
    fun step => .expectThen (by decide) fun _ => ?_
  exact (tracks_statementSequence h).seq (by decide) fun body =>
    (Tracks.expect (by decide) _).last _

/-! ## Statements -/

theorem tracks_returnStatement :
    Tracks d (n + 1) (· = .kwReturn) Nonterminal.statement.follow
      (.chain [.word .kwReturn, .option (.rule .expression)]) (returnStatement call) := by
  unfold returnStatement
  refine .behindWord (by decide) fun _ => .last (.ifAtAny (.present ?_ ?_) (.absent ?_)) _
  · exact ((h.tracks .expression).before (by decide)).whenAt fun _ _ => trivial
  · decide
  · decide

/-- The rule that a statement is read by tracks the statement. -/
theorem tracks_of_statementRule? {t : Token} {rule : Parser Node}
    (ht : statementRule? o call t = some rule) :
    Tracks d (n + 1) (· = t) Nonterminal.statement.follow (.rule .statement) rule := by
  refine .rule ?_
  unfold statementRule? at ht
  split at ht
  · cases ht
    exact .anyOf 1 rfl ((tracks_ifStatement h).before (by decide)) (by decide)
  · cases ht
    exact .anyOf 2 rfl ((tracks_caseStatement h).before (by decide)) (by decide)
  · cases ht
    exact .anyOf 3 rfl ((tracks_loopStatement h).before (by decide)) (by decide)
  · cases ht
    exact .anyOf 4 rfl ((tracks_whileStatement h).before (by decide)) (by decide)
  · cases ht
    exact .anyOf 5 rfl ((tracks_repeatStatement h).before (by decide)) (by decide)
  · cases ht
    exact .anyOf 6 rfl ((tracks_forStatement h).before (by decide)) (by decide)
  · cases ht
    exact .anyOf 7 rfl (tracks_returnStatement h) (by decide)
  · cases ht
    exact .anyOf 8 rfl ((Tracks.word (by decide)).last _) (by decide)
  · split at ht
    · next hi =>
      cases ht
      refine .anyOf 0 rfl (.mono (tracks_assignmentOrCall h) (by decide) (Nat.le_refl _)
        fun _ _ => trivial) ?_
      rintro c hc t rfl
      have hmem : t ∈ identStart := hi
      clear hi
      revert c t
      decide
    · cases ht

theorem tracks_statement :
    Tracks d (n + 1) Anywhere Nonterminal.statement.follow (.rule .statement)
      (statement o call) := by
  unfold statement
  refine .token fun t => ?_
  split
  · next rule ht => exact (tracks_of_statementRule? h ht).count _ _
  · next ht =>
    refine .expectAny ?_ fun _ => Composed.grows (.pure (n := 0) _)
    have hstart : t ∉ statementStart := by
      intro hmem
      have := isSome_statementRule? o call hmem
      rw [ht] at this
      cases this
    rintro t rfl
    clear ht h
    revert t
    decide

end Modula.Grammar
