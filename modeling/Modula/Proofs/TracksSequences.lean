import Modula.Proofs.ComposedRules
import Modula.Proofs.Tracks

/-!
# Names and sequences track the grammar

For each nonterminal a set of tokens is fixed that may stand behind it. A rule that ends by looking
whether it can go on may be followed by anything else, so these sets leave out the tokens that it
goes on with. They are larger than what the grammar puts behind the nonterminal, and the rules are
the more exact for it.
-/

namespace Modula

open Modula.Parser Modula.Grammar

/-- All tokens but those listed. -/
def allBut (ts : List Token) : TokenSet := tokens (Token.all.filter (· ∉ ts))

theorem mem_allBut {ts : List Token} {t : Token} : t ∈ allBut ts ↔ t ∉ ts := by
  rw [allBut, tokens, TokenBitmap.mem_ofList, List.mem_filter, and_iff_right t.mem_all,
    decide_eq_true_iff]

theorem subset_allBut_nil (F : TokenSet) : F.isSubsetOf (allBut []) = true :=
  TokenBitmap.isSubsetOf_iff.2 fun _ _ => mem_allBut.2 List.not_mem_nil

/-- The tokens that go on with a designator. -/
def selectors : List Token := [.dot, .lBracket, .deref]

/-- The tokens that go on with an expression. -/
def continuations : List Token :=
  selectors ++ [.lParen, .typeConv, .asterisk, .solidus, .kwDiv, .kwMod, .kwAnd, .plus, .minus,
    .kwOr, .equal, .notEqual, .less, .lessOrEqual, .greater, .greaterOrEqual, .identity, .kwIn]

/-- The tokens that may stand behind a nonterminal as its rule reads it. -/
def Nonterminal.follow : Nonterminal → TokenSet
  | designator => allBut selectors
  | simpleFactor => allBut (selectors ++ [.lParen])
  | factor | simpleTerm => allBut (selectors ++ [.lParen, .typeConv])
  | term =>
    allBut (selectors ++ [.lParen, .typeConv, .asterisk, .solidus, .kwDiv, .kwMod, .kwAnd])
  | simpleExpression =>
    allBut (selectors ++ [.lParen, .typeConv, .asterisk, .solidus, .kwDiv, .kwMod, .kwAnd, .plus,
      .minus, .kwOr])
  | expression | repeatStatement | constantDefinition => allBut continuations
  | assignmentOrCall => allBut (.assign :: continuations)
  | valueComponent => allBut (.dotDot :: continuations)
  | caseLabelList => allBut (.dotDot :: .comma :: continuations)
  | expressionList => allBut (.comma :: continuations)
  | qualident | formalType | formalParameters | setType => allBut [.dot]
  | identList => allBut [.comma]
  | type | arrayType | pointerType | typeDefinition _ | variableDeclaration =>
    allBut [.dot, .lParen, .colon, .kwOf]
  | subrangeType => allBut [.dot, .kwOf]
  | procedureType | signature => allBut [.dot, .lParen, .colon]
  | fieldList => fieldListFollow
  | fieldListSequence | variant => fieldsEnd
  | statement => statementFollow
  | statementSequence | caseBranch => statementsEnd
  | definition => declarationStart ∪ definitionsEnd
  | declaration => declarationStart ∪ declarationsEnd
  | compilationUnit | definitionModule | programModule => unitEnd
  | importClause | block | procedureDeclaration | enumType | recordType | variantFieldList
  | ifStatement | caseStatement | loopStatement | whileStatement | forStatement
  | structuredValue | actualParameters => allBut []

/-- The nonterminal of a nested construct. -/
def Nested.nonterminal : Nested → Nonterminal
  | expression => .expression
  | statement => .statement
  | type => .type
  | procedure => .procedureDeclaration
  | variantFields => .variantFieldList

/-- Where a nested construct is called. -/
def Nested.entry : Nested → Token → Prop
  | procedure => (· = .kwProcedure)
  | variantFields => (· = .kwCase)
  | _ => Anywhere

/-- The nested constructs can be relied on, and track the grammar where no more symbols are left. -/
structure CallTracks (d : Dialect) (k n : Nat) (call : Call) : Prop where
  reliable : Reliable k call
  tracks : ∀ x : Nested,
    Tracks d n x.entry x.nonterminal.follow (.rule x.nonterminal) (call x)

namespace Grammar

variable {α β : Type} {d : Dialect} {k n : Nat} {F G : TokenSet}

/-! ## Names -/

theorem tracks_identList (r : TokenSet) :
    Tracks d n Anywhere Nonterminal.identList.follow (.rule .identList) (identList r) := by
  refine .rule ?_
  unfold identList
  exact (Tracks.separated (G := allBut []) (k := 0) (by decide) (by decide) inferInstance
    (Tracks.ident _) (by decide) (by decide)).last _

theorem tracks_qualident (r : TokenSet) :
    Tracks d n Anywhere Nonterminal.qualident.follow (.rule .qualident) (qualident r) := by
  have hround (found : List Node) : Tracks d n Anywhere Nonterminal.qualident.follow
      (.many (.seq (.word .dot) (.ident none))) (loop (qualidentRound r) found) := by
    refine Tracks.loop (I := fun _ => True) (k := 0) (fun _ => inferInstance)
      (consuming_qualidentRound r) ?_ found trivial
    intro m _ hlater parts _
    refine .congr ?_ Ebnf.same_many.symm
    unfold qualidentRound
    rw [ifAt_bind]
    refine .ifAt (.present ?_ (by rintro u rfl; decide)) (.absent ?_)
    · refine .congr ?_ (Ebnf.same_seq_assoc _ _ _).symm
      rw [bind_assoc]
      refine .behindWord (by decide) fun _ => ?_
      rw [bind_assoc]
      exact .identBind (fun p => List.prefix_refl _) fun s => hlater _ trivial
    · decide
  refine .rule ?_
  unfold qualident
  refine .identBind (fun p => List.prefix_refl _) fun s => ?_
  refine .ifAt (((hround _).last _).whenAt fun _ _ => trivial) ?_
  refine .congr (.absent ?_) Ebnf.same_many.symm
  decide

/-! ## Sequences -/

/-- Behind a semicolon there is a sequence again: in the tolerant dialect, it may be empty. -/
theorem same_spareList (a : Ebnf) :
    Ebnf.Same d (.spareList d .semicolon a)
      (.seq a (.option (.seq (.word .semicolon) (.sequence d a)))) := by
  have hlist := Ebnf.same_list (d := d) (a := a) .semicolon
  unfold Ebnf.sequence Ebnf.spareList
  split
  · unfold Ebnf.Same at hlist ⊢
    simp only [Ebnf.language_seq, Ebnf.language_option] at hlist ⊢
    generalize Ebnf.language d (.list .semicolon a) = l at hlist ⊢
    generalize Ebnf.language d (.word .semicolon) = w at hlist ⊢
    calc
      l * (1 + w) = Ebnf.language d a * (1 + w * l) * (1 + w) := by rw [← hlist]
      _ = Ebnf.language d a * (1 + w * (1 + l * (1 + w))) := by
        rw [mul_assoc, add_mul, one_mul, mul_add w, mul_one, mul_assoc, add_assoc]
  · exact hlist

/-- A list that may be empty in the tolerant dialect, where a report says so. -/
theorem tracks_sequence {closers : TokenSet} {a : Ebnf} {note : Parser β} {k : β → Parser α}
    {list : Parser α}
    (hnote : ∀ p, ∃ y e, note.exec p = (.ok y, p.report e) ∧ e.code.phase = .syntactic ∧
      e.code ≠ .unexpectedSymbol)
    (hk : ∀ y, Tracks d n Anywhere F .empty (k y)) (ha : a.isNullable = false)
    (hF : F.isSubsetOf closers = true) (hclosers : ∀ t ∈ closers, t ∉ a.first)
    (h : Tracks d n Anywhere F (.spareList d .semicolon a) list) :
    Tracks d n Anywhere F (.sequence d a) (ifAtAny closers (note >>= k) list) := by
  have hfirst {t : Token} (ht : t ∈ closers) :
      t ∉ (Ebnf.spareList d .semicolon a).firstWith F := by
    intro hmem
    have hnull : (Ebnf.spareList d .semicolon a).isNullable = false := by
      unfold Ebnf.spareList Ebnf.list
      split <;> simp [Ebnf.isNullable, ha]
    have hsame : (Ebnf.spareList d .semicolon a).first = a.first := by
      unfold Ebnf.spareList Ebnf.list
      split <;> simp [Ebnf.first, Ebnf.isNullable, ha]
    rw [Ebnf.firstWith, hnull, hsame] at hmem
    exact hclosers t ht hmem
  unfold Ebnf.sequence
  cases hd : d.isTolerant with
  | true =>
    refine .ifAtAny (.note (fun p => ?_) fun y => ?_) (.present (h.whenAt fun _ _ => trivial) ?_)
    · obtain ⟨y, e, he, -, hcode⟩ := hnote p
      exact ⟨y, e, he, Dialect.counts_eq_false hd hcode⟩
    · exact ((hk y).whenAt fun _ _ => trivial).left fun t ht => hfirst ht.2
    · exact fun t ht hmem => ht.2 (TokenBitmap.isSubsetOf_iff.1 hF t hmem)
  | false =>
    refine .ifAtAny (.blame (fun p => ?_) (fun t ht => hfirst ht.2) fun y => (hk y).grows)
      (h.whenAt fun _ _ => trivial)
    obtain ⟨y, e, he, hphase, -⟩ := hnote p
    refine ⟨y, e, he, Dialect.counts_eq_true hd hphase, fun ht => ?_⟩
    rw [hd] at ht
    cases ht

theorem tracks_semicolonList {o : ParseOptions} {start closers : TokenSet} {a : Ebnf}
    {item : Parser Node} (hi : Composed k item) (hc : Consumes (· ∈ start) item)
    (h : Tracks d n Anywhere G a item) (ha : a.isNullable = false)
    (hF : F.isSubsetOf closers = true) (hclosers : ∀ t ∈ closers, t ∉ a.first)
    (hstart : ∀ t ∈ start, t ∉ F) (hFG : (F.insert .semicolon).isSubsetOf G = true)
    (hsemicolon : .semicolon ∉ F) :
    Tracks d n Anywhere F (.spareList d .semicolon a) (semicolonList o start closers item) := by
  have hword : Token.IsWord .semicolon := by decide
  have hfollow : ((Ebnf.option (.seq (.word .semicolon) (.sequence d a))).firstWith F).isSubsetOf
      G = true := by
    refine TokenBitmap.isSubsetOf_iff.2 fun t ht => ?_
    refine TokenBitmap.isSubsetOf_iff.1 hFG t (TokenBitmap.mem_insert.2 ?_)
    rcases Ebnf.mem_firstWith_option.1 ht with ht | ht
    · exact .inr ((Ebnf.mem_firstWith_word_seq hword).1 ht)
    · exact .inl ht
  unfold semicolonList
  refine .map (.loop (I := fun _ => True) (k := k) (fun _ => inferInstance)
    (consuming_semicolonRound o closers hi hc) ?_ [] trivial) _
  intro m hm hlater found _
  refine .congr ?_ (same_spareList a).symm
  unfold semicolonRound
  rw [bind_assoc]
  refine (h.within (Nat.succ_le_of_lt hm)).seq hfollow fun node => ?_
  dsimp only
  rw [ifAt_bind]
  refine .ifAt (.present ?_ (by rintro t rfl; exact hsemicolon)) ?_
  · have hnext : Tracks d (m + 1) (· = .semicolon) ((Ebnf.sequence d a).firstWith F)
        (.word .semicolon) next :=
      .consume exec_next (by rintro t rfl; exact readable_self List.mem_cons_self (by decide))
    rw [bind_assoc]
    refine hnext.seq_drop (TokenBitmap.isSubsetOf_iff.2 fun _ => id) rfl fun semicolon => ?_
    rw [ifAtAny_bind, bind_assoc]
    refine tracks_sequence (fun p => ⟨(), _, rfl, rfl, ?_⟩) (fun _ => .pure _) ha hF hclosers
      (hlater _ trivial)
    exact Code.noConfusion
  · rw [ifAtAny_bind]
    refine .ifAtAny ?_ (.absent ?_)
    · rw [bind_assoc]
      refine .unexpected ?_ fun _ => ?_
      · rintro t ⟨⟨-, ht⟩, hmem⟩ hfirst
        rcases Ebnf.mem_firstWith_option.1 hfirst with hfirst | hfirst
        · exact ht ((Ebnf.mem_firstWith_word_seq hword).1 hfirst)
        · exact hstart t hmem hfirst
      · exact (hlater _ trivial).grows
    · rintro t ⟨⟨-, ht⟩, -⟩ hfirst
      exact ht ((Ebnf.mem_firstWith_word_seq hword).1 hfirst)

end Grammar

end Modula
