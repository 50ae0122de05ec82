import Modula.Proofs.TracksExpressions

/-!
# Types and field lists track the grammar
-/

namespace Modula.Grammar

open Modula.Parser

variable {α β : Type} {d : Dialect} {k n : Nat} {F G : TokenSet}

/-! ## Types without expressions -/

theorem tracks_enumType :
    Tracks d (n + 1) (· = .lParen) Nonterminal.enumType.follow (.rule .enumType) enumType := by
  have hbase : Tracks d n Anywhere Nonterminal.identList.first
      (.option (.chain [.word .plus, .rule .qualident, .word .comma])) enumBase := by
    unfold enumBase
    refine (Tracks.optionAt (by decide) (by decide) fun _ => ?_).within (Nat.le_succ n)
    exact (tracks_qualident _).seq (by decide) fun base =>
      (Tracks.expect (by decide) _).last _
  refine .rule ?_
  unfold enumType
  refine .behindWord (by decide) fun _ => hbase.seq (by decide) fun base => ?_
  exact (tracks_identList _).seq (by decide) fun values =>
    (Tracks.expect (by decide) _).last _

theorem tracks_aliasType :
    Tracks d (n + 1) (· = .kwAlias) Nonterminal.qualident.follow
      (.chain [.word .kwAlias, .word .kwOf, .rule .qualident]) aliasType := by
  unfold aliasType
  refine .behindWord (by decide) fun _ => .expectThen (by decide) fun _ => ?_
  exact (tracks_qualident _).last _

theorem tracks_setType :
    Tracks d (n + 1) (· = .kwSet) Nonterminal.setType.follow (.rule .setType) setType := by
  refine .rule ?_
  unfold setType
  refine .behindWord (by decide) fun _ => .expectThen (by decide) fun _ => .last (.ifAt ?_ ?_) _
  · exact .right ((tracks_enumType.within (Nat.le_succ n)).before (by decide))
      (by decide)
  · exact .left ((tracks_qualident _).whenAt fun _ _ => trivial) (by decide)

/-! ## Formal types -/

theorem tracks_parameterType (r : TokenSet) :
    Tracks d n Anywhere Nonterminal.formalType.follow
      (.seq (.option (.chain [.word .kwArray, .word .kwOf])) (.rule .qualident))
      (parameterType r) := by
  refine .congr ?_ (Ebnf.same_option_seq _ _).symm
  unfold parameterType
  refine .ifAt (.right (.congr ?_ (Ebnf.same_seq_assoc _ _ _).symm) (by decide))
    (.left ((tracks_qualident r).whenAt fun _ _ => trivial) (by decide))
  refine (Tracks.behindWord (n := n) (by decide) fun _ => ?_).within (Nat.le_succ n)
  exact .expectThen (by decide) fun _ => (tracks_qualident r).last _

theorem tracks_formalType (r : TokenSet) :
    Tracks d n Anywhere Nonterminal.formalType.follow (.rule .formalType) (formalType r) := by
  refine .rule (.congr ?_ (Ebnf.same_option_seq _ _).symm)
  unfold formalType
  refine .token fun t => ?_
  split
  · refine .right (.congr ?_ (Ebnf.same_either_seq _ _ _).symm) (by decide)
    refine .left (.congr ?_ (Ebnf.same_seq_assoc _ _ _).symm) (by decide)
    refine (Tracks.behindWord (n := n) (by decide) fun _ => ?_).within (Nat.le_succ n)
    exact .expectThen (by decide) fun _ => (tracks_parameterType r).last _
  · refine .right (.congr ?_ (Ebnf.same_either_seq _ _ _).symm) (by decide)
    refine .right (Tracks.within (.behindWord (n := n) (by decide) fun _ => ?_) (Nat.le_succ n))
      (by decide)
    exact (tracks_parameterType r).last _
  · refine .left ((tracks_parameterType r).whenAt fun _ _ => trivial) ?_
    rintro t rfl
    revert t
    decide

/-- What may stand in front of a closing parenthesis. -/
theorem tracks_untilParen {r : TokenSet} {a : Ebnf} {m : Parser α} {x : β} {f : α → β}
    (hm : Tracks d n Anywhere G a m) (hG : .rParen ∈ G) (ha : .rParen ∉ a.firstWith G) :
    Tracks d n Anywhere F (.seq (.option a) (.word .rParen))
      (ifAt .rParen
        (do advance; return x)
        (do
          let parts ← m
          expect .rParen r
          return f parts)) := by
  have hword : Token.IsWord .rParen := by decide
  have hbehind : ((Ebnf.word .rParen).firstWith F).isSubsetOf G = true := by
    refine TokenBitmap.isSubsetOf_iff.2 fun t ht => ?_
    rw [(Ebnf.mem_firstWith_word hword).1 ht]
    exact hG
  refine .congr ?_ (Ebnf.same_option_seq _ _).symm
  refine .ifAt (.left ((Tracks.word hword.1).last _) ?_) (.right ?_ ?_)
  · rintro t rfl hmem
    refine ha ?_
    rw [Ebnf.mem_firstWith_seq, Ebnf.mem_firstWith] at hmem
    rw [Ebnf.mem_firstWith]
    exact hmem.imp_right fun hn => ⟨hn.1, hG⟩
  · exact (hm.whenAt fun _ _ => trivial).seq hbehind fun parts =>
      (Tracks.expect hword r).last _
  · rintro t ⟨-, ht⟩ hmem
    exact ht ((Ebnf.mem_firstWith_word hword).1 hmem)

theorem tracks_procedureType :
    Tracks d (n + 1) (· = .kwProcedure) Nonterminal.procedureType.follow (.rule .procedureType)
      procedureType := by
  have hlist : Tracks d n Anywhere (allBut [.dot, .comma]) (.list .comma (.rule .formalType))
      (separated .comma (formalType (typeFollow ∪ tokens [.comma, .colon]))) :=
    .separated (k := 0) (by decide) (by decide) inferInstance (tracks_formalType _)
      (by decide) (by decide)
  refine .rule ?_
  unfold procedureType
  refine .behindWord (by decide) fun _ => ?_
  refine .optionalThen (G := allBut []) (by decide) ?_ (by decide) (by decide) fun parameters => ?_
  · exact tracks_untilParen hlist (by decide) (by decide)
  · exact (Tracks.optionalAt (by decide) (by decide)
      ((tracks_qualident _).before (by decide))).last _

/-! ## Types with other types in them -/

section Types

variable {call : Call} (h : CallTracks d k n call)
include h

theorem tracks_subrangeType :
    Tracks d (n + 1) (· = .lBracket) Nonterminal.subrangeType.follow (.rule .subrangeType)
      (subrangeType call) := by
  refine .rule ?_
  unfold subrangeType
  refine .behindWord (by decide) fun _ => ?_
  refine (h.tracks .expression).seq (by decide) fun low => .expectThen (by decide) fun _ => ?_
  refine (h.tracks .expression).seq (by decide) fun high =>
    .expectThen (by decide) fun _ => ?_
  exact (Tracks.optionalAt (by decide) (by decide)
    ((tracks_qualident _).before (by decide))).last _

theorem tracks_arrayType :
    Tracks d (n + 1) (· = .kwArray) Nonterminal.arrayType.follow (.rule .arrayType)
      (arrayType call) := by
  refine .rule ?_
  unfold arrayType
  refine .behindWord (by decide) fun _ => ?_
  refine (tracks_expressionList h).seq (by decide) fun dimensions =>
    .expectThen (by decide) fun _ => ?_
  exact (h.tracks .type).last _

theorem tracks_pointerType :
    Tracks d (n + 1) (· = .kwPointer) Nonterminal.pointerType.follow (.rule .pointerType)
      (pointerType call) := by
  refine .rule ?_
  unfold pointerType
  refine .behindWord (by decide) fun _ => .expectThen (by decide) fun _ => ?_
  exact (h.tracks .type).last _

/-! ## Field lists -/

theorem tracks_fields :
    Tracks d n Anywhere Nonterminal.fieldList.follow
      (.chain [.rule .identList, .word .colon, .rule .type]) (fields call) := by
  unfold fields
  refine (tracks_identList _).seq (by decide) fun names => .expectThen (by decide) fun _ => ?_
  exact ((h.tracks .type).before (by decide)).last _

variable {o : ParseOptions} (ho : o.records = d.records)
include ho

theorem tracks_fieldList :
    Tracks d n Anywhere Nonterminal.fieldList.follow (.rule .fieldList) (fieldList o call) := by
  rcases d with ⟨records, isTolerant⟩
  obtain rfl : o.records = records := ho
  unfold fieldList
  refine .token fun t => ?_
  dsimp only
  generalize o.records = records at h ⊢
  split
  · next hi =>
    have hmem : t ∈ identStart := hi
    refine .rule ?_
    cases records with
    | variant =>
      refine .left ((tracks_fields h).whenAt fun _ _ => trivial) ?_
      rintro t rfl
      revert t
      decide
    | extensible => exact (tracks_fields h).whenAt fun _ _ => trivial
  · split
    · next hi hc =>
      obtain ⟨rfl, hstart⟩ := hc
      refine .rule ?_
      cases records with
      | variant =>
        exact .right ((h.tracks .variantFields).before (by decide)) (by decide)
      | extensible =>
        exact absurd hstart (by decide)
    · next hi hc =>
      refine .rule (.expectAny ?_ fun _ => Composed.grows (.pure (n := 0) _))
      rintro t rfl
      clear h
      cases records <;> revert t isTolerant <;> decide

theorem tracks_fieldListSequence :
    Tracks d n Anywhere Nonterminal.fieldListSequence.follow (.rule .fieldListSequence)
      (fieldListSequence o call) := by
  have := h.reliable
  have hlists : Tracks d n Anywhere fieldsEnd (.spareList d .semicolon (.rule .fieldList))
      (semicolonList o (fieldListStartOf o.records) fieldsEnd (fieldList o call)) := by
    refine tracks_semicolonList (k := k) inferInstance (consumes_fieldList k o)
      (tracks_fieldList h ho) rfl (by decide) (by decide) ?_ (by decide)
      (by decide)
    generalize o.records = records
    cases records <;> decide
  refine .rule ?_
  unfold fieldListSequence
  rw [← bind_pure (missingItems .emptyFields)]
  exact tracks_sequence (fun p => ⟨.empty, _, rfl, rfl, Code.noConfusion⟩) (fun _ => .pure _) rfl
    (by decide) (by decide) (hlists.last _)

theorem tracks_variant :
    Tracks d n Anywhere Nonterminal.variant.follow (.rule .variant) (variant o call) := by
  refine .rule ?_
  unfold variant
  refine (tracks_caseLabelList h).seq (by decide) fun labels =>
    .expectThen (by decide) fun _ => ?_
  exact (tracks_fieldListSequence h ho).last _

theorem tracks_variantFieldList :
    Tracks d (n + 1) (· = .kwCase) Nonterminal.variantFieldList.follow (.rule .variantFieldList)
      (variantFieldList o call) := by
  have := h.reliable
  have hvariants : Tracks d n Anywhere (tokens [.kwElse, .kwEnd]) (.list .bar (.rule .variant))
      (separated .bar (variant o call)) :=
    .separated (k := k) (by decide) (by decide) inferInstance (tracks_variant h ho)
      (by decide) (by decide)
  refine .rule ?_
  unfold variantFieldList
  refine .behindWord (by decide) fun _ => ?_
  refine Tracks.andThen (.ifAtAny (.present (.consumeIdent (exec_leaf .ident) fun t ht => ht.2) ?_)
    (.absent ?_)) fun tag => .expectThen (by decide) fun _ => ?_
  · decide
  · exact fun t ht hmem => ht.2 hmem
  refine (tracks_qualident _).seq (by decide) fun tagType =>
    .expectThen (by decide) fun _ => .andThen ?_ fun _ => ?_
  · exact .ifAt (.present (.word (by decide)) (by decide)) (.absent (by decide))
  refine hvariants.seq (by decide) fun variants => ?_
  refine .optionalThen (by decide) (tracks_fieldListSequence h ho) (by decide)
    (by decide) fun otherwise => ?_
  exact (Tracks.expect (by decide) _).last _

/-! ## Type denoters -/

omit h ho in
theorem tracks_recordBase :
    Tracks d n Anywhere (allBut [.lParen])
      (.option (.chain [.word .lParen, .rule .qualident, .word .rParen])) recordBase := by
  unfold recordBase
  refine (Tracks.optionAt (by decide) (by decide) fun _ => ?_).within (Nat.le_succ n)
  exact (tracks_qualident _).seq (by decide) fun base =>
    (Tracks.expect (by decide) _).last _

theorem tracks_recordType :
    Tracks d (n + 1) (· = .kwRecord) Nonterminal.recordType.follow (.rule .recordType)
      (recordType o call) := by
  refine .rule ?_
  unfold recordType recordBody
  rw [ho, production]
  cases d.records with
  | variant =>
    refine .behindWord (by decide) fun _ => ?_
    rw [bind_assoc]
    refine (tracks_fieldListSequence h ho).seq (by decide) fun fields => ?_
    exact (Tracks.expect (by decide) _).last _
  | extensible =>
    refine .behindWord (by decide) fun _ => ?_
    simp only [bind_assoc, pure_bind]
    refine tracks_recordBase.seq (by decide) fun base => ?_
    refine (tracks_fieldListSequence h ho).seq (by decide) fun fields => ?_
    exact (Tracks.expect (by decide) _).last _

theorem tracks_typeDenoter :
    Tracks d (n + 1) Anywhere Nonterminal.type.follow (.rule .type) (typeDenoter o call) := by
  unfold typeDenoter
  refine .token fun t => ?_
  split
  · exact .rule (.anyOf 0 rfl (tracks_aliasType.before (by decide)) (by decide))
  · exact .rule (.anyOf 2 rfl ((tracks_subrangeType h).before (by decide)) (by decide))
  · exact .rule (.anyOf 3 rfl (tracks_enumType.before (by decide)) (by decide))
  · exact .rule (.anyOf 4 rfl (tracks_setType.before (by decide)) (by decide))
  · exact .rule (.anyOf 5 rfl ((tracks_arrayType h).before (by decide)) (by decide))
  · exact .rule (.anyOf 6 rfl ((tracks_recordType h ho).before (by decide)) (by decide))
  · exact .rule (.anyOf 7 rfl ((tracks_pointerType h).before (by decide)) (by decide))
  · exact .rule (.anyOf 8 rfl (tracks_procedureType.before (by decide)) (by decide))
  · split
    · refine .rule (.anyOf 1 rfl (.mono (tracks_qualident _) (by decide) (Nat.le_refl _)
        fun _ _ => trivial) ?_)
      rintro c hc t rfl
      revert c t
      decide
    · refine .expectAny ?_ fun _ => Composed.grows (.pure (n := 0) _)
      rintro t rfl
      revert t
      decide

end Types

end Modula.Grammar
