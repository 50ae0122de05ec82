import Modula.Proofs.TracksSequences

/-!
# Expressions track the grammar
-/

namespace Modula.Grammar

open Modula.Parser

variable {α β : Type} {d : Dialect} {k n : Nat} {F G : TokenSet}

/-! ## Expressions in lists -/

/-- What may stand between two tokens. -/
theorem tracks_enclosed {opening closing : Token} {r : TokenSet} {a : Ebnf} {m : Parser α} {x : α}
    {f : α → β} (ho : opening ≠ .endOfFile) (hc : closing.IsWord)
    (hm : Tracks d n Anywhere G a m) (hG : closing ∈ G) (ha : closing ∉ a.firstWith G) :
    Tracks d (n + 1) (· = opening) F (.chain [.word opening, .option a, .word closing])
      (do
        advance
        let parts ← ifAt closing (Pure.pure x) m
        expect closing r
        return f parts) := by
  have hword : ((Ebnf.word closing).firstWith F).isSubsetOf G = true := by
    refine TokenBitmap.isSubsetOf_iff.2 fun t ht => ?_
    rw [(Ebnf.mem_firstWith_word hc).1 ht]
    exact hG
  refine .behindWord ho fun _ => ?_
  refine .andThen (.ifAt (.absent ?_) (.present (hm.before hword |>.whenAt fun _ _ => trivial) ?_))
    fun parts => (Tracks.expect hc r).last _
  · rintro t rfl hmem
    refine ha ?_
    rw [Ebnf.mem_firstWith] at hmem ⊢
    exact hmem.imp_right fun hn => ⟨hn.1, hG⟩
  · rintro t ⟨-, ht⟩ hmem
    exact ht ((Ebnf.mem_firstWith_word hc).1 hmem)

section Expressions

variable {call : Call} (h : CallTracks d k n call)
include h

theorem tracks_expressionList :
    Tracks d n Anywhere Nonterminal.expressionList.follow (.rule .expressionList)
      (expressionList call) := by
  refine .rule ?_
  unfold expressionList
  exact (Tracks.separated (by decide) (by decide) (h.reliable.composed .expression)
    (h.tracks .expression) (by decide) (by decide)).map _

theorem tracks_valueComponent :
    Tracks d n Anywhere Nonterminal.valueComponent.follow (.rule .valueComponent)
      (valueComponent call) := by
  refine .rule ?_
  unfold valueComponent
  refine (h.tracks .expression).seq (by decide) fun low => ?_
  refine (Tracks.optionAt (by decide) (by decide) fun _ => ?_).within (Nat.le_succ n)
  exact ((h.tracks .expression).before (by decide)).last _

theorem tracks_caseLabelList :
    Tracks d n Anywhere Nonterminal.caseLabelList.follow (.rule .caseLabelList)
      (caseLabelList call) := by
  have := h.reliable
  refine .rule ?_
  unfold caseLabelList
  exact (Tracks.separated (k := k) (by decide) (by decide) inferInstance
    (tracks_valueComponent h) (by decide) (by decide)).map _

theorem tracks_structuredValue :
    Tracks d (n + 1) (· = .lBrace) F (.rule .structuredValue) (structuredValue call) := by
  have := h.reliable
  have hparts : Tracks d n Anywhere Nonterminal.caseLabelList.follow
      (.list .comma (.rule .valueComponent)) (separated .comma (valueComponent call)) :=
    .separated (k := k) (by decide) (by decide) inferInstance
      (tracks_valueComponent h) (by decide) (by decide)
  refine .rule ?_
  unfold structuredValue
  exact tracks_enclosed (by decide) (by decide) hparts (by decide) (by decide)

theorem tracks_actualParameters :
    Tracks d (n + 1) (· = .lParen) F (.rule .actualParameters) (actualParameters call) := by
  have hparts : Tracks d n Anywhere Nonterminal.expressionList.follow
      (.rule .expressionList) (separated .comma (call .expression)) :=
    .rule (.separated (by decide) (by decide) (h.reliable.composed .expression)
      (h.tracks .expression) (by decide) (by decide))
  refine .rule ?_
  unfold actualParameters
  exact tracks_enclosed (by decide) (by decide) hparts (by decide) (by decide)

/-! ## Designators -/

theorem tracks_designator :
    Tracks d (n + 1) Anywhere Nonterminal.designator.follow (.rule .designator)
      (designator call) := by
  have := h.reliable
  refine .rule ?_
  unfold designator
  refine .identThen fun first => ?_
  refine Tracks.loop (I := fun _ => True) (k := k) (fun _ => inferInstance)
    (consuming_selectorRound k) ?_ first trivial
  intro m hm hlater part _
  have hle : m ≤ n := Nat.le_of_lt_succ hm
  refine .congr ?_ Ebnf.same_many.symm
  unfold selectorRound
  rw [bind_assoc]
  refine .token fun t => ?_
  split
  · refine .present (.anyOfThen 0 rfl ?_ (by decide +kernel)) (by rintro t rfl; decide)
    refine .congr ?_ (Ebnf.same_seq_assoc _ _ _).symm
    simp only [bind_assoc, pure_bind, again]
    exact .behindWord (by decide) fun _ => .identThen fun field => hlater _ trivial
  · refine .present (.anyOfThen 1 rfl ?_ (by decide +kernel)) (by rintro t rfl; decide)
    refine .congr ?_ (Ebnf.same_seq_assoc _ _ _).symm
    simp only [bind_assoc, pure_bind, again]
    refine .behindWord (by decide) fun _ => .congr ?_ (Ebnf.same_seq_assoc _ _ _).symm
    refine ((tracks_expressionList h).within hle).seq (by decide) fun subscripts => ?_
    exact .expectThen (by decide) fun _ => hlater _ trivial
  · refine .present (.anyOfThen 2 rfl ?_ (by decide +kernel)) (by rintro t rfl; decide)
    simp only [bind_assoc, pure_bind, again]
    exact .behindWord (by decide) fun _ => hlater _ trivial
  · next hdot hbracket hderef =>
    refine .absent ?_
    rintro t rfl
    revert t
    decide

/-! ## Factors and terms -/

theorem tracks_designatorOrCall :
    Tracks d (n + 1) Anywhere Nonterminal.simpleFactor.follow
      (.seq (.rule .designator) (.option (.rule .actualParameters))) (designatorOrCall call) := by
  unfold designatorOrCall
  refine (tracks_designator h).seq (by decide) fun designator => ?_
  exact .ifAt (.present ((tracks_actualParameters h).last _) (by decide))
    (.absent (by decide))

theorem tracks_parenthesized :
    Tracks d (n + 1) (· = .lParen) Nonterminal.simpleFactor.follow
      (.chain [.word .lParen, .rule .expression, .word .rParen]) (parenthesized call) := by
  unfold parenthesized
  refine .behindWord (by decide) fun _ => ?_
  exact (h.tracks .expression).seq (by decide) fun inner =>
    (Tracks.expect (by decide) _).last _

omit h in
/-- A literal is read for what it stands for. -/
theorem readable_of_literalKind? {t : Token} (ht : (literalKind? t).isSome) :
    Readable d [.wholeNumber, .realNumber, .charCode, .quotedString] t := by
  unfold Readable Dialect.Reads
  revert ht
  cases d.isTolerant <;> cases t <;> decide

theorem tracks_simpleFactor :
    Tracks d (n + 1) Anywhere Nonterminal.simpleFactor.follow (.rule .simpleFactor)
      (simpleFactor call) := by
  unfold simpleFactor
  refine .token fun t => ?_
  split
  · next kind hkind =>
    have hsome : (literalKind? t).isSome := by rw [hkind]; rfl
    refine .rule (.anyOf 0 rfl (.consume (exec_leaf kind) ?_) ?_)
    · rintro _ rfl
      exact readable_of_literalKind? hsome
    · rintro c hc t rfl
      clear hkind
      revert c t
      decide +kernel
  · next hkind =>
    split
    · next ht =>
      cases ht
      exact .rule (.anyOf 1 rfl (tracks_structuredValue h) (by decide +kernel))
    · split
      · next ht =>
        cases ht
        exact .rule (.anyOf 3 rfl (tracks_parenthesized h) (by decide +kernel))
      · split
        · refine .rule (.anyOf 2 rfl ((tracks_designatorOrCall h).whenAt fun _ _ => trivial) ?_)
          rintro c hc t rfl
          revert c t
          decide
        · refine .unexpected ?_ fun _ => Composed.grows (k := 0) inferInstance
          rintro t rfl
          revert t
          decide

theorem tracks_factor :
    Tracks d (n + 1) Anywhere Nonterminal.factor.follow (.rule .factor) (factor call) := by
  refine .rule ?_
  unfold factor
  refine (tracks_simpleFactor h).seq (by decide) fun value => ?_
  exact .optionAt (by decide) (by decide) fun _ =>
    ((tracks_qualident _).before (by decide)).last _

theorem tracks_simpleTerm :
    Tracks d (n + 1) Anywhere Nonterminal.simpleTerm.follow (.rule .simpleTerm)
      (simpleTerm call) := by
  refine .rule (.congr ?_ (Ebnf.same_option_seq _ _).symm)
  unfold simpleTerm
  refine .ifAt (.right ?_ (by rintro t rfl; decide)) (.left ?_ (by decide))
  · exact .behindWord (by decide) fun _ => ((tracks_factor h).within (Nat.le_succ n)).last _
  · exact (tracks_factor h).whenAt fun _ _ => trivial

omit h in
/-- `{ operator operand }` -/
theorem tracks_operators {kind? : Token → Option Kind} {t : Token} {ts : List Token} {a : Ebnf}
    (hkind : ∀ u, (kind? u).isSome ↔ u ∈ t :: ts) (hts : .endOfFile ∉ t :: ts)
    (hplain : Ebnf.standIns (t :: ts) = []) (hF : ∀ u ∈ t :: ts, u ∉ F) (hG : ∀ u ∈ t :: ts, u ∈ G)
    (hFG : F.isSubsetOf G = true) {operand : Parser Node} (hc : Composed k operand)
    (h : Tracks d n Anywhere G a operand) (left : Node) :
    Tracks d n Anywhere F (.many (.seq (.oneOf t ts) a))
      (loop (operatorRound kind? operand) left) := by
  have hend : kind? .endOfFile = none := by
    rw [← Option.not_isSome_iff_eq_none, hkind]
    exact hts
  have hfollow : ((Ebnf.many (.seq (.oneOf t ts) a)).firstWith F).isSubsetOf G = true := by
    refine TokenBitmap.isSubsetOf_iff.2 fun u hu => ?_
    rcases Ebnf.mem_firstWith_many.1 hu with hu | hu
    · refine hG u ((Ebnf.mem_firstWith_oneOf (F := ∅) hplain).1 ?_)
      exact Ebnf.mem_firstWith.2 (.inl hu)
    · exact TokenBitmap.isSubsetOf_iff.1 hFG u hu
  refine Tracks.loop (I := fun _ => True) (k := k) (fun _ => inferInstance)
    (consuming_operatorRound hend hc) ?_ left trivial
  intro m hm hlater left _
  refine .congr ?_ Ebnf.same_many.symm
  unfold operatorRound
  rw [bind_assoc]
  refine .token fun u => ?_
  split
  · next hu =>
    refine .absent ?_
    rintro u rfl hmem
    rw [Ebnf.mem_firstWith_seq, Ebnf.mem_firstWith_seq, Ebnf.mem_firstWith_oneOf hplain, ← hkind,
      hu] at hmem
    cases hmem
  · next kind hu =>
    have hmem : u ∈ t :: ts := by rw [← hkind, hu]; rfl
    refine .present (.congr ?_ (Ebnf.same_seq_assoc _ _ _).symm) (by rintro u rfl; exact hF u hmem)
    simp only [bind_assoc, pure_bind, again]
    refine .behindOneOf (by rintro u rfl; exact ⟨hmem, fun h => hts (h ▸ hmem)⟩) fun _ => ?_
    exact (h.within (Nat.le_of_lt hm)).seq hfollow fun right => hlater _ trivial

theorem tracks_term :
    Tracks d (n + 1) Anywhere Nonterminal.term.follow (.rule .term) (term call) := by
  have := h.reliable
  refine .rule ?_
  unfold term
  refine (tracks_simpleTerm h).seq (by decide) fun left => ?_
  exact tracks_operators (k := k) (by decide) (by decide) (by decide) (by decide)
    (by decide) (by decide) inferInstance (tracks_simpleTerm h) left

theorem tracks_signedTerm :
    Tracks d (n + 1) Anywhere Nonterminal.term.follow
      (.seq (.option (.oneOf .plus [.minus])) (.rule .term)) (signedTerm call) := by
  refine .congr ?_ (Ebnf.same_option_seq _ _).symm
  unfold signedTerm
  refine .token fun t => ?_
  split
  · refine .right (.behindOneOf (by decide) fun _ => ?_) (by rintro t rfl; decide)
    exact ((tracks_term h).within (Nat.le_succ n)).last _
  · refine .right (.behindOneOf (by decide) fun _ => ?_) (by rintro t rfl; decide)
    exact (tracks_term h).within (Nat.le_succ n)
  · refine .left ((tracks_term h).whenAt fun _ _ => trivial) ?_
    rintro t rfl
    revert t
    decide

theorem tracks_simpleExpression :
    Tracks d (n + 1) Anywhere Nonterminal.simpleExpression.follow (.rule .simpleExpression)
      (simpleExpression call) := by
  have := h.reliable
  refine .rule (.congr ?_ (Ebnf.same_seq_assoc _ _ _))
  unfold simpleExpression
  refine (tracks_signedTerm h).seq (by decide) fun left => ?_
  exact tracks_operators (k := k) (by decide) (by decide) (by decide) (by decide)
    (by decide) (by decide) inferInstance (tracks_term h) left

theorem tracks_expression :
    Tracks d (n + 1) Anywhere Nonterminal.expression.follow (.rule .expression)
      (expression call) := by
  refine .rule ?_
  unfold expression
  refine (tracks_simpleExpression h).seq (by decide) fun left => ?_
  refine .token fun t => ?_
  split
  · next ht =>
    refine .absent ?_
    rintro t rfl
    revert t
    decide
  · next kind ht =>
    have hsome : (relationKind? t).isSome := by rw [ht]; rfl
    refine .present (.behindOneOf ?_ fun _ => Tracks.last (.mono (tracks_simpleExpression h)
      (by decide) (Nat.le_succ n) fun _ => id) _) ?_
    · rintro t rfl
      clear ht
      revert t
      decide
    · rintro t rfl
      clear ht
      revert t
      decide

end Expressions

end Modula.Grammar
