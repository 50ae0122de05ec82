import Modula.Proofs.TracksStatements
import Modula.Proofs.TracksTypes

/-!
# Declarations track the grammar
-/

namespace Modula.Grammar

open Modula.Parser

variable {α : Type} {d : Dialect} {k n : Nat} {F G : TokenSet} {o : ParseOptions}

/-! ## Procedure headers -/

theorem tracks_parameterMode :
    Tracks d n Anywhere identStart (.option (.oneOf .kwConst [.kwVar])) parameterMode := by
  have hmode {t : Token} (ht : t ∈ [Token.kwConst, .kwVar]) (kind : Kind) :
      Tracks d n (· = t) identStart (.oneOf .kwConst [.kwVar])
        (advance >>= fun _ => Pure.pure kind) := by
    refine Tracks.last (.consume (f := fun _ => ()) exec_advance ?_) _
    rintro t rfl
    exact readable_self ht fun hend => absurd (hend ▸ ht) (by decide)
  unfold parameterMode
  refine .token fun t => ?_
  split
  · exact .present (hmode (by decide) _) (by decide)
  · exact .present (hmode (by decide) _) (by decide)
  · refine .absent ?_
    rintro t rfl
    revert t
    decide

theorem tracks_formalParameters :
    Tracks d n Anywhere Nonterminal.formalParameters.follow (.rule .formalParameters)
      formalParameters := by
  refine .rule ?_
  unfold formalParameters
  refine tracks_parameterMode.seq (by decide) fun mode => ?_
  refine (tracks_identList _).seq (by decide) fun names =>
    .expectThen (by decide) fun _ => ?_
  exact (tracks_formalType _).last _

theorem tracks_formalParameterList :
    Tracks d n Anywhere F
      (.seq (.option (.spareList d .semicolon (.rule .formalParameters))) (.word .rParen))
      (formalParameterList o) := by
  have hlist : Tracks d n Anywhere (tokens [.rParen])
      (.spareList d .semicolon (.rule .formalParameters))
      (semicolonList o ∅ (tokens [.rParen]) formalParameters) := by
    refine tracks_semicolonList (k := 0) inferInstance (.of_false ?_) tracks_formalParameters rfl
      (by decide) (by decide) (by decide) (by decide) (by decide)
    decide
  unfold formalParameterList
  refine tracks_untilParen hlist (by decide) ?_
  unfold Ebnf.spareList
  split <;> decide

/-- What a procedure header ends with, and the semicolon behind it. -/
theorem tracks_signature {b : Ebnf} {r : TokenSet} {k : Node → Node → Parser α}
    (hb : ∀ t, t ∈ b.firstWith F → t = .semicolon)
    (hk : ∀ parameters result, Tracks d n Anywhere F b (k parameters result)) :
    Tracks d n Anywhere F (.seq (.rule .signature) b)
      (optionalAt .lParen (formalParameterList o) >>= fun parameters =>
        optionalAt .colon (qualident r) >>= fun result => k parameters result) := by
  have hresult {t : Token}
      (ht : t ∈ (Ebnf.seq (.option (.chain [.word .colon, .rule .qualident])) b).firstWith F) :
      t = .colon ∨ t = .semicolon := by
    rcases Ebnf.mem_firstWith_option.1 (Ebnf.mem_firstWith_seq.1 ht) with ht | ht
    · exact .inl ((Ebnf.mem_firstWith_word_seq (by decide)).1 ht)
    · exact .inr (hb t ht)
  refine .congr ?_ (Ebnf.same_rule_seq _ _).symm
  refine .congr ?_ (Ebnf.same_seq_assoc _ _ _).symm
  refine .optionalThen (G := allBut []) (by decide) tracks_formalParameterList
    (subset_allBut_nil _) ?_ fun parameters =>
      .optionalThen (by decide) (tracks_qualident r) ?_ ?_ (hk parameters)
  · intro hmem
    rcases hresult hmem with h | h <;> cases h
  · refine TokenBitmap.isSubsetOf_iff.2 fun t ht => ?_
    rw [hb t ht]
    decide
  · intro hmem
    exact absurd (hb _ hmem) (by decide)

theorem tracks_procedureDefinition :
    Tracks d (n + 1) (· = .kwProcedure) F
      (.chain [.word .kwProcedure, .ident none, .rule .signature, .word .semicolon])
      (procedureDefinition o) := by
  unfold procedureDefinition procedureHeader
  simp only [bind_assoc, pure_bind]
  refine .behindWord (by decide) fun _ => .identThen fun name => tracks_signature ?_ ?_
  · intro t ht
    exact (Ebnf.mem_firstWith_word (by decide)).1 ht
  · exact fun parameters result => (Tracks.expect (by decide) _).count _ _

/-! ## Constants, types and variables -/

section Declarations

variable {call : Call} (h : CallTracks d k n call)
include h

theorem tracks_constantDefinition :
    Tracks d n Anywhere Nonterminal.constantDefinition.follow (.rule .constantDefinition)
      (constantDefinition call) := by
  refine .rule ?_
  unfold constantDefinition
  refine .identThen fun name => .expectThen (by decide) fun _ => ?_
  exact (h.tracks .expression).count _ _

omit h in
theorem tracks_opaqueType (part : Part) :
    Tracks d n (· = .kwOpaque) Nonterminal.type.follow
      (if d.isTolerant ∨ part = .definitions then .either (.word .kwOpaque) (.rule .type)
        else .rule .type) (opaqueType part) := by
  have hword : Tracks d n (· = .kwOpaque) Nonterminal.type.follow
      (.either (.word .kwOpaque) (.rule .type))
      (advance >>= fun _ => Pure.pure (Tree.bare .opaqueType : Node)) :=
    .left ((Tracks.word (by decide)).last _) (by rintro t rfl; decide)
  cases part with
  | definitions =>
    rw [if_pos (.inr rfl)]
    exact hword
  | declarations =>
    have hreport : opaqueType .declarations =
        (do report (faultAt .opaqueOutsideDefinition (← lookahead))) >>= fun _ =>
          advance >>= fun _ => Pure.pure (Tree.bare .opaqueType) := rfl
    rw [hreport]
    cases hd : d.isTolerant with
    | true =>
      rw [if_pos (.inl rfl)]
      refine .note (fun p => ⟨(), _, rfl, ?_⟩) fun _ => hword
      exact Dialect.counts_eq_false hd nofun
    | false =>
      rw [if_neg (by decide)]
      refine .blame (fun p => ⟨(), _, rfl, ?_, ?_⟩) (by rintro t rfl; decide) fun _ =>
        hword.grows
      · exact Dialect.counts_eq_true hd rfl
      · intro ht
        rw [hd] at ht
        cases ht

theorem tracks_typeDefinition (part : Part) :
    Tracks d n Anywhere (Nonterminal.typeDefinition part).follow (.rule (.typeDefinition part))
      (typeDefinition call part) := by
  refine .rule ?_
  unfold typeDefinition
  refine .identThen fun name => .expectThen (by decide) fun _ => ?_
  refine .count (.ifAt (tracks_opaqueType part) ?_) _ _
  split
  · exact .right ((h.tracks .type).whenAt fun _ _ => trivial) (by decide)
  · exact (h.tracks .type).whenAt fun _ _ => trivial

theorem tracks_variableDeclaration :
    Tracks d n Anywhere Nonterminal.variableDeclaration.follow (.rule .variableDeclaration)
      (variableDeclaration call) := by
  refine .rule ?_
  unfold variableDeclaration
  refine (tracks_identList _).seq (by decide) fun names =>
    .expectThen (by decide) fun _ => ?_
  exact (h.tracks .type).count _ _

/-! ## Lists of declarations -/

omit h in
/-- A section word and `{ item ";" }`. -/
theorem tracks_declarationSection {w : Token} (hw : w ≠ .endOfFile) {a : Ebnf}
    (ha : a.isNullable = false) (hfirst : a.first.isSubsetOf identStart = true)
    (hF : ∀ t ∈ identStart, t ∉ F) (hG : .semicolon ∈ G) {item : Parser Node}
    (hi : Composed k item) (hc : Consumes (· ∈ identStart) item)
    (h : Tracks d n Anywhere G a item) :
    Tracks d (n + 1) (· = w) F (.seq (.word w) (.many (.seq a (.word .semicolon))))
      (declarationSection item) := by
  have hitem : Tracks d n (· ∈ identStart) (allBut []) (.seq a (.word .semicolon)) (do
      let node ← item
      expect .semicolon behindDeclaredItem
      return node) := by
    refine (h.whenAt fun _ _ => trivial).seq ?_ fun node => (Tracks.expect (by decide) _).last _
    refine TokenBitmap.isSubsetOf_iff.2 fun t ht => ?_
    rw [(Ebnf.mem_firstWith_word (by decide)).1 ht]
    exact hG
  have hfirst' : (Ebnf.seq a (.word .semicolon)).first = a.first := by
    rw [Ebnf.first, ha]
    rfl
  unfold declarationSection
  refine .behindWord hw fun _ => .whileAtAny (k := k) ?_ ?_ hF inferInstance
    (hc.bind (n := k) fun _ => inferInstance) hitem (subset_allBut_nil _)
    (subset_allBut_nil _)
  · rw [hfirst']
    exact hfirst
  · rw [Ebnf.isNullable, ha]
    rfl

/-- What a list of declarations is made of. -/
def Part.item : Part → Nonterminal
  | definitions => .definition
  | declarations => .declaration

namespace Part

omit h

variable (part : Part)

theorem first_item : part.item.first = declarationStart := by cases part <;> rfl

theorem isNullable_item : (Ebnf.rule part.item).isNullable = false := by cases part <;> rfl

theorem not_mem_closers {t : Token} (ht : t ∈ declarationStart) : t ∉ part.closers := by
  have h : ∀ t ∈ declarationStart, t ∉ part.closers := by cases part <;> decide
  exact h t ht

/-- One declaration, and the rest of the list, start with what a declaration starts with. -/
theorem not_mem_firstWith_items {t : Token} (ht : t ∉ declarationStart) :
    t ∉ (Ebnf.seq (.rule part.item) (.many (.rule part.item))).firstWith part.closers := by
  rw [Ebnf.mem_firstWith_seq, Ebnf.mem_firstWith_of_not_isNullable part.isNullable_item]
  change t ∉ part.item.first
  rwa [part.first_item]

end Part

theorem tracks_constantSection (part : Part) :
    Tracks d (n + 1) (· = .kwConst) part.item.follow (.rule part.item)
      (declarationSection (constantDefinition call)) := by
  have := h.reliable
  have hsection (F : TokenSet) (hF : ∀ t ∈ identStart, t ∉ F) :=
    tracks_declarationSection (k := k) (F := F) (w := .kwConst) (by decide) rfl (by decide) hF
      (by decide) inferInstance (consumes_constantDefinition k call)
      (tracks_constantDefinition h)
  cases part with
  | definitions => exact .rule (.anyOf 0 rfl (hsection _ (by decide)) (by decide))
  | declarations => exact .rule (.anyOf 0 rfl (hsection _ (by decide)) (by decide))

theorem tracks_typeSection (part : Part) :
    Tracks d (n + 1) (· = .kwType) part.item.follow (.rule part.item)
      (declarationSection (typeDefinition call part)) := by
  have := h.reliable
  have hsection (F : TokenSet) (hF : ∀ t ∈ identStart, t ∉ F) :=
    tracks_declarationSection (k := k) (F := F) (w := .kwType) (by decide) rfl
      (by cases part <;> decide) hF (by cases part <;> decide) inferInstance
      (consumes_typeDefinition k call part) (tracks_typeDefinition h part)
  cases part with
  | definitions => exact .rule (.anyOf 1 rfl (hsection _ (by decide)) (by decide))
  | declarations => exact .rule (.anyOf 1 rfl (hsection _ (by decide)) (by decide))

theorem tracks_variableSection (part : Part) :
    Tracks d (n + 1) (· = .kwVar) part.item.follow (.rule part.item)
      (declarationSection (variableDeclaration call)) := by
  have := h.reliable
  have hsection (F : TokenSet) (hF : ∀ t ∈ identStart, t ∉ F) :=
    tracks_declarationSection (k := k) (F := F) (w := .kwVar) (by decide) rfl (by decide) hF
      (by decide) inferInstance (consumes_variableDeclaration k call)
      (tracks_variableDeclaration h)
  cases part with
  | definitions => exact .rule (.anyOf 2 rfl (hsection _ (by decide)) (by decide))
  | declarations => exact .rule (.anyOf 2 rfl (hsection _ (by decide)) (by decide))

theorem tracks_procedureIn (part : Part) :
    Tracks d n (· = .kwProcedure) part.item.follow (.rule part.item) (procedureIn o call part) := by
  cases part with
  | definitions =>
    exact .rule (.anyOf 3 rfl (tracks_procedureDefinition.within (Nat.le_succ n))
      (by decide +kernel))
  | declarations =>
    exact .rule (.anyOf 3 rfl ((h.tracks .procedure).before (by decide))
      (by decide))

omit h in
/-- What is read by a rule for one declaration, and then the rest of the list. -/
theorem tracks_itemRound {part : Part} {w : Token} (hw : w ∈ declarationStart)
    {round : List (List Node) → Parser (Round (List (List Node)))} {rule : Parser α}
    {f : α → List (List Node)}
    (hrule : Tracks d (n + 1) (· = w) part.item.follow (.rule part.item) rule)
    (hlater : ∀ found, Tracks d n Anywhere part.closers (.many (.rule part.item))
      (loop round found)) :
    Tracks d (n + 1) (· = w) part.closers
      (.option (.seq (.rule part.item) (.many (.rule part.item))))
      ((rule >>= fun x => Pure.pure (.more (f x))) >>= again round) := by
  have hfollow : ((Ebnf.many (.rule part.item)).firstWith part.closers).isSubsetOf
      part.item.follow = true := by cases part <;> decide
  refine .present ?_ (by rintro t rfl; exact part.not_mem_closers hw)
  simp only [bind_assoc, pure_bind, again]
  exact hrule.seq_drop hfollow part.isNullable_item fun x => hlater _

theorem tracks_declarationList (part : Part) :
    Tracks d n Anywhere part.closers (.many (.rule part.item))
      (declarationList o call part) := by
  have := h.reliable
  unfold declarationList
  refine .last (.loop (I := fun _ => True) (k := k) (fun _ => inferInstance)
    (consuming_declarationRound k o part) ?_ [] trivial) _
  intro m hm hlater found _
  have hitem {w : Token} (hw : w ∈ declarationStart) {α : Type} {rule : Parser α}
      {f : α → List (List Node)}
      (hrule : Tracks d n (· = w) part.item.follow (.rule part.item) rule) :=
    tracks_itemRound (f := f) hw (hrule.within hm) fun found => hlater found trivial
  refine .congr ?_ Ebnf.same_many.symm
  unfold declarationRound
  rw [bind_assoc]
  refine .token fun t => ?_
  split
  · exact hitem (by decide) ((tracks_constantSection h part).within (Nat.le_succ n))
  · exact hitem (by decide) ((tracks_typeSection h part).within (Nat.le_succ n))
  · exact hitem (by decide) ((tracks_variableSection h part).within (Nat.le_succ n))
  · exact hitem (by decide) (tracks_procedureIn h part)
  · next hconst htype hvar hproc =>
    have hstart := not_mem_declarationStart hconst htype hvar hproc
    have hnone := part.not_mem_firstWith_items hstart
    rw [ifAtAny_bind]
    refine .ifAtAny (.absent (by rintro t ⟨rfl, -⟩; exact hnone)) ?_
    rw [bind_assoc]
    refine .expectAny ?_ fun _ => (hlater _ trivial).grows
    rintro t ⟨rfl, ht⟩
    refine ⟨fun hmem => ?_, fun hmem => ?_⟩
    · exact (TokenBitmap.mem_union.1 hmem).elim hstart ht
    · exact (Ebnf.mem_firstWith_option.1 hmem).elim hnone ht

/-! ## Blocks and procedures -/

theorem tracks_block :
    Tracks d n Anywhere Nonterminal.block.follow (.rule .block) (block o call) := by
  refine .rule ?_
  unfold block
  refine (tracks_declarationList h .declarations).seq (by decide) fun declarations => ?_
  refine .optionalThen (by decide) (tracks_statementSequence h) (by decide)
    (by decide) fun body => ?_
  exact (Tracks.expect (by decide) _).last _

theorem tracks_procedureDeclaration :
    Tracks d (n + 1) (· = .kwProcedure) Nonterminal.procedureDeclaration.follow
      (.rule .procedureDeclaration) (procedureDeclaration o call) := by
  have := h.reliable
  refine .rule ?_
  unfold procedureDeclaration procedureHeader
  simp only [bind_assoc, pure_bind]
  refine .behindWord (by decide) fun _ => ?_
  refine .closedBy (Composed.grows (k := k) inferInstance) fun s => ?_
  refine .congr (tracks_signature ?_ fun parameters result => ?_) (Ebnf.same_seq_assoc _ _ _).symm
  · intro t ht
    exact (Ebnf.mem_firstWith_word_seq (by decide)).1 (Ebnf.mem_firstWith_seq.1 ht)
  · refine .congr (.expectThen (by decide) fun _ => ?_) (Ebnf.same_seq_assoc _ _ _).symm
    refine (tracks_block h).seq (subset_allBut_nil _) fun body => ?_
    exact (Tracks.closing s _).andThen fun _ => (Tracks.expect (by decide) _).count _ _

end Declarations

end Modula.Grammar
