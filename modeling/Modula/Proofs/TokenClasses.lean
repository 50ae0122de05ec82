import Modula.Grammar.CompilationUnit

/-!
# Tokens that the grammar does not tell apart

The lexical rules know several sorts of identifiers, numbers and strings, among them malformed ones.
To the grammar they are the same. Here each token has a normal form, and a set of tokens is uniform
if it holds a token whenever it holds its normal form. Every set of the grammar is uniform.

The side conditions are classes, so that they are found by following the text of a rule.
-/

namespace Modula

/-- A condition that is found to hold by computing it. -/
class IsTrue (b : Bool) : Prop where
  eq_true : b = true

instance : IsTrue true := ⟨rfl⟩

namespace Token

/-- The token that stands for all that the grammar does not tell from it. -/
def normal : Token → Token
  | foreignIdent | malformedIdent => stdIdent
  | malformedNumber => wholeNumber
  | malformedString => quotedString
  | t => t

/-- The grammar tells the token from every other one. -/
@[reducible]
def isPlain : Token → Bool
  | stdIdent | foreignIdent | malformedIdent | wholeNumber | malformedNumber | quotedString
  | malformedString => false
  | _ => true

/-- Tokens with one normal form are not told apart. -/
structure Indistinct {β : Type} (k : Token → β) : Prop where
  foreignIdent : k stdIdent = k foreignIdent
  malformedIdent : k stdIdent = k malformedIdent
  malformedNumber : k wholeNumber = k malformedNumber
  malformedString : k quotedString = k malformedString

theorem Indistinct.normal_eq {β : Type} {k : Token → β} (h : Indistinct k) (t : Token) :
    k t.normal = k t := by
  cases t with
  | foreignIdent => exact h.foreignIdent
  | malformedIdent => exact h.malformedIdent
  | malformedNumber => exact h.malformedNumber
  | malformedString => exact h.malformedString
  | _ => rfl

theorem normal_of_isPlain {t : Token} (h : t.isPlain) : t.normal = t := by
  revert h
  cases t <;> first | exact fun _ => rfl | exact fun h => absurd h Bool.false_ne_true

theorem isPlain_normal (t : Token) : t.normal.isPlain = t.isPlain := by
  cases t <;> rfl

/-- Two tokens with one normal form are both a plain token, or neither is. -/
theorem eq_iff_of_normal_eq {t u v : Token} [hv : IsTrue v.isPlain] (h : t.normal = u.normal) :
    t = v ↔ u = v := by
  have himp {t u : Token} (h : t.normal = u.normal) (ht : t = v) : u = v := by
    subst ht
    have hu : u.isPlain := by
      rw [← isPlain_normal, ← h, isPlain_normal]
      exact hv.eq_true
    rw [← normal_of_isPlain hu, ← h, normal_of_isPlain hv.eq_true]
  exact ⟨himp h, himp h.symm⟩

end Token

namespace TokenBitmap

/-- The set holds a token whenever it holds its normal form. -/
class Uniform (s : TokenSet) : Prop where
  contains_normal : ∀ t : Token, s.contains t.normal = s.contains t

theorem Uniform.contains_eq {s : TokenSet} [h : s.Uniform] {t u : Token}
    (htu : t.normal = u.normal) : s.contains t = s.contains u := by
  rw [← h.contains_normal t, htu, h.contains_normal]

instance : Uniform ∅ where
  contains_normal t := by rw [contains_empty, contains_empty]

instance (a b : TokenSet) [ha : Uniform a] [hb : Uniform b] : Uniform (a ∪ b) where
  contains_normal t := by
    rw [contains_union, contains_union, ha.contains_normal, hb.contains_normal]

instance (t : Token) (s : TokenSet) [ht : IsTrue t.isPlain] [hs : Uniform s] :
    Uniform (s.insert t) where
  contains_normal u := by
    have hu : t = u.normal ↔ t = u := by
      rw [eq_comm, eq_comm (b := u)]
      refine Token.eq_iff_of_normal_eq ?_
      cases u <;> rfl
    rw [contains_insert, contains_insert, hs.contains_normal, decide_eq_decide.2]
    rw [hu]

end TokenBitmap

namespace Grammar

open TokenBitmap

instance : Uniform (tokens []) := inferInstanceAs (Uniform ∅)

instance (t : Token) (ts : List Token) [ht : IsTrue t.isPlain] [hts : Uniform (tokens ts)] :
    Uniform (tokens (t :: ts)) where
  contains_normal u := by
    have hset : (tokens (t :: ts)).contains = ((tokens ts).insert t).contains := by
      funext v
      rw [Bool.eq_iff_iff]
      change v ∈ ofList (t :: ts) ↔ v ∈ (ofList ts).insert t
      rw [mem_insert, mem_ofList, mem_ofList, List.mem_cons, or_comm]
    rw [hset]
    exact Uniform.contains_normal u

instance : Uniform identStart where
  contains_normal t := by cases t <;> rfl

instance : Uniform literalStart where
  contains_normal t := by cases t <;> rfl

instance : Uniform definitionStart := by unfold definitionStart; infer_instance

instance : Uniform programStart := by unfold programStart; infer_instance

instance : Uniform unitStart := by unfold unitStart; infer_instance

instance : Uniform importStart := by unfold importStart; infer_instance

instance : Uniform declarationStart := by unfold declarationStart; infer_instance

instance : Uniform typeStart := by unfold typeStart; infer_instance

instance : Uniform formalTypeStart := by unfold formalTypeStart; infer_instance

instance : Uniform fieldListStart := by unfold fieldListStart; infer_instance

instance : Uniform statementStart := by unfold statementStart; infer_instance

instance : Uniform expressionStart := by unfold expressionStart; infer_instance

instance : Uniform statementsEnd := by unfold statementsEnd; infer_instance

instance : Uniform statementFollow := by unfold statementFollow; infer_instance

instance : Uniform fieldsEnd := by unfold fieldsEnd; infer_instance

instance : Uniform fieldListFollow := by unfold fieldListFollow; infer_instance

instance : Uniform typeFollow := by unfold typeFollow; infer_instance

instance : Uniform expressionFollow := by unfold expressionFollow; infer_instance

instance : Uniform definitionsEnd := by unfold definitionsEnd; infer_instance

instance : Uniform declarationsEnd := by unfold declarationsEnd; infer_instance

instance : Uniform declarationFollow := by unfold declarationFollow; infer_instance

instance : Uniform importFollow := by unfold importFollow; infer_instance

instance : Uniform formalParametersFollow := by unfold formalParametersFollow; infer_instance

instance : Uniform headerFollow := by unfold headerFollow; infer_instance

instance : Uniform blockFollow := by unfold blockFollow; infer_instance

instance : Uniform unitEnd := by unfold unitEnd; infer_instance

instance : Uniform withoutThen := by unfold withoutThen; infer_instance

instance : Uniform behindModuleName := by unfold behindModuleName; infer_instance

instance : Uniform behindModuleWord := by unfold behindModuleWord; infer_instance

instance : Uniform behindDeclaredItem := by unfold behindDeclaredItem; infer_instance

instance : Uniform behindImportedName := by unfold behindImportedName; infer_instance

instance : Uniform typeOrFollow := by unfold typeOrFollow; infer_instance

instance : Uniform expressionOrFollow := by unfold expressionOrFollow; infer_instance

instance : Uniform statementOrFollow := by unfold statementOrFollow; infer_instance

instance (records : RecordGrammar) : Uniform (fieldListStartOf records) := by
  cases records with
  | variant => exact inferInstanceAs (Uniform fieldListStart)
  | extensible => exact inferInstanceAs (Uniform identStart)

instance (part : Part) : Uniform part.closers := by
  cases part with
  | definitions => exact inferInstanceAs (Uniform definitionsEnd)
  | declarations => exact inferInstanceAs (Uniform declarationsEnd)

instance (kind : UnitKind) : Uniform (startOf kind) := by
  cases kind <;> (unfold startOf; infer_instance)

end Grammar

end Modula
