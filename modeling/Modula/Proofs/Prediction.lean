import Modula.Grammar.TypeDenoter
import Modula.Proofs.Ebnf

/-!
# Prediction

By one symbol of lookahead it is decided which part of a production comes next. This needs to know
which tokens each part can start with and whether it can be empty. For the nonterminals both are
given by tables, the first of them made of the sets that the rules of the grammar use. The tables
are the same for all dialects; they are checked against the productions here.
-/

namespace Modula

open Grammar

/-! ## What things start with -/

/-- The tokens that a nonterminal can start with, in some dialect. -/
def Nonterminal.first : Nonterminal → TokenSet
  | compilationUnit => unitStart
  | definitionModule => definitionStart
  | programModule => programStart
  | importClause => importStart
  | block => declarationStart ∪ tokens [.kwBegin, .kwEnd]
  | definition | declaration => declarationStart
  | constantDefinition | typeDefinition _ | variableDeclaration | designator | assignmentOrCall
  | identList | qualident => identStart
  | procedureDeclaration => tokens [.kwProcedure]
  | signature => tokens [.lParen, .colon]
  | formalParameters => identStart ∪ tokens [.kwConst, .kwVar]
  | formalType => formalTypeStart
  | type => typeStart
  | subrangeType => tokens [.lBracket]
  | enumType => tokens [.lParen]
  | setType => tokens [.kwSet]
  | arrayType => tokens [.kwArray]
  | recordType => tokens [.kwRecord]
  | pointerType => tokens [.kwPointer]
  | procedureType => tokens [.kwProcedure]
  | fieldListSequence | fieldList => fieldListStart
  | variantFieldList => tokens [.kwCase]
  | statementSequence | statement => statementStart
  | ifStatement => tokens [.kwIf]
  | caseStatement => tokens [.kwCase]
  | loopStatement => tokens [.kwLoop]
  | whileStatement => tokens [.kwWhile]
  | repeatStatement => tokens [.kwRepeat]
  | forStatement => tokens [.kwFor]
  | variant | caseBranch | caseLabelList | expression | simpleExpression | valueComponent
  | expressionList => expressionStart
  | term | simpleTerm => identStart ∪ literalStart ∪ tokens [.lBrace, .lParen, .kwNot]
  | factor | simpleFactor => identStart ∪ literalStart ∪ tokens [.lBrace, .lParen]
  | structuredValue => tokens [.lBrace]
  | actualParameters => tokens [.lParen]

/-- Whether a nonterminal can be empty, in some dialect. -/
def Nonterminal.isNullable : Nonterminal → Bool
  | signature | fieldListSequence | statementSequence => true
  | _ => false

namespace Ebnf

/-- Whether an expression of the grammar can be empty. -/
def isNullable : Ebnf → Bool
  | oneOf _ _ | ident _ | closed _ _ => false
  | empty | many _ => true
  | seq a b => isNullable a && isNullable b
  | either a b => isNullable a || isNullable b
  | rule n => n.isNullable

/-- The tokens that can stand for one of the listed ones. -/
def standIns (ts : List Token) : List Token :=
  [.malformedIdent, .malformedNumber, .malformedString].filter fun t => ts.contains t.mended

/-- The tokens that an expression of the grammar can start with. -/
def first : Ebnf → TokenSet
  | oneOf t ts => tokens (t :: ts) ∪ tokens (standIns (t :: ts))
  | ident _ => identStart
  | empty => ∅
  | seq a b => if isNullable a then first a ∪ first b else first a
  | either a b => first a ∪ first b
  | many a => first a
  | rule n => n.first
  | closed _ _ => identStart

/-- The tokens that an expression starts with, or that what comes behind it starts with. -/
def firstWith (a : Ebnf) (behind : TokenSet) : TokenSet :=
  if isNullable a then first a ∪ behind else first a

end Ebnf

/-- The tables agree with the productions. -/
theorem first_production (d : Dialect) (n : Nonterminal) :
    (production d n).first.isSubsetOf n.first = true ∧
      ((production d n).isNullable = true → n.isNullable = true) := by
  rcases d with ⟨records, isTolerant⟩
  cases n with
  | typeDefinition part => cases part <;> cases records <;> cases isTolerant <;> decide +kernel
  | _ => cases records <;> cases isTolerant <;> decide +kernel

theorem Token.mended_eq_self_or (t : Token) :
    t.mended = t ∨ t ∈ [malformedIdent, malformedNumber, malformedString] := by
  cases t <;> decide

theorem Dialect.Reads.mem_standIns {d : Dialect} {ts : List Token} {t : Token}
    (h : d.Reads ts t) : t ∈ tokens ts ∪ tokens (Ebnf.standIns ts) := by
  rw [TokenBitmap.mem_union]
  unfold tokens
  rw [TokenBitmap.mem_ofList, TokenBitmap.mem_ofList]
  rcases h with h | ⟨-, h⟩
  · exact .inl h
  · rcases t.mended_eq_self_or with heq | hm
    · rw [heq] at h
      exact .inl h
    · refine .inr (List.mem_filter.2 ⟨hm, ?_⟩)
      simpa using h

theorem Dialect.Reads.mem_identStart {d : Dialect} {t : Token} (h : d.Reads identifiers t) :
    t ∈ identStart :=
  TokenBitmap.isSubsetOf_iff.1 (by decide) _ h.mem_standIns

namespace Derives

variable {d : Dialect} {a : Ebnf}

theorem isNullable (h : Derives d a []) : a.isNullable = true := by
  have hall : ∀ u, Derives d a u → u = [] → a.isNullable = true := by
    clear h
    intro u h
    induction h with
    | oneOf | ident | closed => intro hn; cases hn
    | empty | none => intro; rfl
    | seq _ _ iha ihb =>
      intro hn
      obtain ⟨ha, hb⟩ := List.append_eq_nil_iff.1 hn
      rw [Ebnf.isNullable, iha ha, ihb hb]
      rfl
    | left _ ih => intro hn; rw [Ebnf.isNullable, ih hn, Bool.true_or]
    | right _ ih => intro hn; rw [Ebnf.isNullable, ih hn, Bool.or_true]
    | more => intro; rfl
    | rule _ ih => intro hn; exact (first_production d _).2 (ih hn)
  exact hall [] h rfl

theorem mem_first {s : Symbol} {u : List Symbol} (h : Derives d a (s :: u)) :
    s.token ∈ a.first := by
  have hall : ∀ v, Derives d a v → ∀ s u, v = s :: u → s.token ∈ a.first := by
    clear h
    intro v h
    induction h with
    | oneOf t ht =>
      intro s u hv
      cases hv
      exact ht.mem_standIns
    | ident t ht =>
      intro s u hv
      cases hv
      exact ht.mem_identStart
    | empty => intro s u hv; cases hv
    | @seq a b v w hv hw iha ihb =>
      intro s u huv
      unfold Ebnf.first
      cases v with
      | nil =>
        rw [if_pos hv.isNullable, TokenBitmap.mem_union]
        exact .inr (ihb s u huv)
      | cons t v =>
        obtain ⟨rfl, -⟩ := List.cons.inj huv
        have ht := iha t v rfl
        split
        · exact TokenBitmap.mem_union.2 (.inl ht)
        · exact ht
    | left _ ih => intro s u hv; exact TokenBitmap.mem_union.2 (.inl (ih s u hv))
    | right _ ih => intro s u hv; exact TokenBitmap.mem_union.2 (.inr (ih s u hv))
    | none => intro s u hv; cases hv
    | @more a v w hv hw iha ihm =>
      intro s u huv
      cases v with
      | nil => exact ihm s u huv
      | cons t v =>
        obtain ⟨rfl, -⟩ := List.cons.inj huv
        exact iha t v rfl
    | rule _ ih =>
      intro s u hv
      exact TokenBitmap.isSubsetOf_iff.1 (first_production d _).1 _ (ih s u hv)
    | closed s t hs _ _ ihs =>
      intro r u hv
      obtain ⟨rfl, -⟩ := List.cons.inj hv
      exact ihs s [] rfl
  exact hall _ h s u rfl

end Derives

/-- The sequence of symbols starts with a token of the set. -/
def BeginsIn (F : TokenSet) (u : List Symbol) : Prop := ∃ s v, u = s :: v ∧ s.token ∈ F

theorem BeginsIn.mono {F G : TokenSet} {u : List Symbol} (h : BeginsIn F u)
    (hFG : F.isSubsetOf G = true) : BeginsIn G u := by
  obtain ⟨s, v, rfl, hs⟩ := h
  exact ⟨s, v, rfl, TokenBitmap.isSubsetOf_iff.1 hFG _ hs⟩

/-- A token that no malformed one stands for. -/
def Token.IsWord (t : Token) : Prop := t ≠ .endOfFile ∧ Ebnf.standIns [t] = []

instance (t : Token) : Decidable t.IsWord := inferInstanceAs (Decidable (_ ∧ _))

namespace Ebnf

variable {a b : Ebnf} {F : TokenSet} {t : Token}

theorem mem_firstWith : t ∈ a.firstWith F ↔ t ∈ a.first ∨ (a.isNullable = true ∧ t ∈ F) := by
  unfold firstWith
  split
  · next h => rw [TokenBitmap.mem_union, and_iff_right h]
  · next h => exact (or_iff_left fun hn => h hn.1).symm

/-- What cannot be empty starts with a token of its own. -/
theorem mem_firstWith_of_not_isNullable (h : a.isNullable = false) :
    t ∈ a.firstWith F ↔ t ∈ a.first := by
  rw [mem_firstWith, h, or_iff_left fun hn => Bool.false_ne_true hn.1]

theorem not_mem_first_empty : t ∉ empty.first :=
  fun h => Bool.false_ne_true ((TokenBitmap.contains_empty t).symm.trans h)

@[simp]
theorem mem_firstWith_empty : t ∈ empty.firstWith F ↔ t ∈ F := by
  rw [mem_firstWith, or_iff_right not_mem_first_empty]
  exact and_iff_right rfl

@[simp]
theorem mem_firstWith_seq : t ∈ (seq a b).firstWith F ↔ t ∈ a.firstWith (b.firstWith F) := by
  simp only [mem_firstWith, first, isNullable, Bool.and_eq_true]
  split
  · next h =>
    rw [TokenBitmap.mem_union]
    simp only [h, true_and, or_assoc]
  · next h => simp [h]

@[simp]
theorem mem_firstWith_either :
    t ∈ (either a b).firstWith F ↔ t ∈ a.firstWith F ∨ t ∈ b.firstWith F := by
  simp only [mem_firstWith, first, isNullable, Bool.or_eq_true, TokenBitmap.mem_union]
  constructor
  · rintro ((h | h) | ⟨h | h, hF⟩)
    · exact .inl (.inl h)
    · exact .inr (.inl h)
    · exact .inl (.inr ⟨h, hF⟩)
    · exact .inr (.inr ⟨h, hF⟩)
  · rintro ((h | ⟨h, hF⟩) | (h | ⟨h, hF⟩))
    · exact .inl (.inl h)
    · exact .inr ⟨.inl h, hF⟩
    · exact .inl (.inr h)
    · exact .inr ⟨.inr h, hF⟩

@[simp]
theorem mem_firstWith_option : t ∈ (option a).firstWith F ↔ t ∈ a.firstWith F ∨ t ∈ F := by
  rw [option, mem_firstWith_either, mem_firstWith_empty, or_comm]

@[simp]
theorem mem_firstWith_many : t ∈ (many a).firstWith F ↔ t ∈ a.first ∨ t ∈ F := by
  rw [mem_firstWith]
  exact or_congr_right (and_iff_right rfl)

theorem mem_firstWith_oneOf {u : Token} {ts : List Token} (h : standIns (t :: ts) = []) :
    u ∈ (oneOf t ts).firstWith F ↔ u ∈ t :: ts := by
  rw [mem_firstWith, first, h, TokenBitmap.mem_union]
  unfold tokens
  rw [TokenBitmap.mem_ofList, TokenBitmap.mem_ofList]
  simp [isNullable]

theorem mem_firstWith_word {u : Token} (ht : t.IsWord) : u ∈ (word t).firstWith F ↔ u = t := by
  rw [word, mem_firstWith_oneOf ht.2, List.mem_singleton]

theorem mem_firstWith_word_seq {u : Token} (ht : t.IsWord) :
    u ∈ (seq (word t) b).firstWith F ↔ u = t := by
  rw [mem_firstWith_seq, mem_firstWith_word ht]

theorem mem_firstWith_ident {text : Option String} :
    t ∈ (ident text).firstWith F ↔ t ∈ identStart := Iff.rfl

theorem mem_firstWith_closed {spelled : Bool} :
    t ∈ (closed spelled a).firstWith F ↔ t ∈ identStart := Iff.rfl

theorem mem_firstWith_anyOf {bs : List Ebnf} :
    t ∈ (anyOf a bs).firstWith F ↔ ∃ c ∈ a :: bs, t ∈ c.firstWith F := by
  induction bs generalizing a with
  | nil => simp [anyOf]
  | cons b bs ih => simp [anyOf, ih]

end Ebnf

/-- What is derived, and what comes behind it. -/
theorem Derives.beginsIn {d : Dialect} {a : Ebnf} {F : TokenSet} {x y : List Symbol}
    (hx : Derives d a x) (hy : BeginsIn F y) : BeginsIn (a.firstWith F) (x ++ y) := by
  unfold Ebnf.firstWith
  cases x with
  | nil =>
    obtain ⟨s, v, rfl, hs⟩ := hy
    rw [if_pos hx.isNullable]
    exact ⟨s, v, rfl, TokenBitmap.mem_union.2 (.inr hs)⟩
  | cons s x =>
    refine ⟨s, x ++ y, rfl, ?_⟩
    have hs := hx.mem_first
    split
    · exact TokenBitmap.mem_union.2 (.inl hs)
    · exact hs

/-! ## Sentences -/

namespace Ebnf

/-- Whether an expression of the grammar derives something, given this of the nonterminals. -/
def isProductive (known : Nonterminal → Bool) : Ebnf → Bool
  | oneOf _ _ | ident _ | empty | many _ => true
  | seq a b => isProductive known a && isProductive known b
  | either a b => isProductive known a || isProductive known b
  | rule n => known n
  | closed _ a => isProductive known a

/-- Whether a nonterminal derives something in a derivation that is no deeper than the number. -/
def isProductiveAt (d : Dialect) : Nat → Nonterminal → Bool
  | 0, _ => false
  | depth + 1, n => isProductive (isProductiveAt d depth) (production d n)

theorem exists_derives_of_isProductive {d : Dialect} {known : Nonterminal → Bool}
    (hknown : ∀ n, known n = true → ∃ u, Derives d (rule n) u) {a : Ebnf}
    (h : isProductive known a = true) : ∃ u, Derives d a u := by
  induction a with
  | oneOf t ts => exact ⟨[⟨t, "", .start⟩], .oneOf _ (.inl (List.mem_cons_self ..))⟩
  | ident text? =>
    refine ⟨[⟨.stdIdent, text?.getD "", .start⟩], .ident _ (.inl List.mem_cons_self) ?_⟩
    intro text ht
    rw [Option.mem_def.1 ht]
    rfl
  | empty => exact ⟨[], .empty⟩
  | many a => exact ⟨[], .none⟩
  | seq a b iha ihb =>
    obtain ⟨ha, hb⟩ := Bool.and_eq_true_iff.1 h
    obtain ⟨u, hu⟩ := iha ha
    obtain ⟨v, hv⟩ := ihb hb
    exact ⟨u ++ v, .seq hu hv⟩
  | either a b iha ihb =>
    rcases Bool.or_eq_true_iff.1 h with ha | hb
    · obtain ⟨u, hu⟩ := iha ha
      exact ⟨u, .left hu⟩
    · obtain ⟨u, hu⟩ := ihb hb
      exact ⟨u, .right hu⟩
  | rule n => exact hknown n h
  | closed spelled body ih =>
    obtain ⟨u, hu⟩ := ih h
    refine ⟨_, .closed ⟨.stdIdent, "", .start⟩ ⟨.stdIdent, "", .start⟩ ?_ hu ?_⟩
    · exact .ident _ (.inl (by decide)) (by simp)
    · refine .ident _ (.inl (by decide)) ?_
      cases spelled <;> simp

theorem exists_derives_of_isProductiveAt {d : Dialect} {depth : Nat} {n : Nonterminal}
    (h : isProductiveAt d depth n = true) : ∃ u, Derives d (rule n) u := by
  induction depth generalizing n with
  | zero => cases h
  | succ depth ih =>
    obtain ⟨u, hu⟩ := exists_derives_of_isProductive (fun n hn => ih hn) h
    exact ⟨u, .rule hu⟩

/-- Every expression of the grammar derives something. -/
theorem exists_derives (d : Dialect) (a : Ebnf) : ∃ u, Derives d a u := by
  have hrule : ∀ n, isProductiveAt d 12 n = true := by
    intro n
    rcases d with ⟨records, isTolerant⟩
    cases n with
    | typeDefinition part => cases part <;> cases records <;> cases isTolerant <;> decide +kernel
    | _ => cases records <;> cases isTolerant <;> decide +kernel
  have hall : ∀ a, isProductive (fun _ => true) a = true := by
    intro a
    induction a with
    | oneOf | ident | empty | many | rule => rfl
    | seq a b iha ihb => rw [isProductive, iha, ihb]; rfl
    | either a b iha ihb => rw [isProductive, iha]; rfl
    | closed spelled a ih => exact ih
  exact exists_derives_of_isProductive
    (fun n _ => exists_derives_of_isProductiveAt (hrule n)) (hall a)

end Ebnf

end Modula
