import Modula.Proofs.AlikeRules
import Modula.Proofs.AnswersRules

/-!
# The limit on nesting

The limit on nesting cuts a parse off and does nothing else. Two readings of a source with different
limits go the same way until the one with the lower limit gives up, if it does; and it does not
where there are at least as many levels as symbols.
-/

namespace Modula

open Modula.Parser Modula.Grammar

/-- The options with another limit on nesting. -/
def ParseOptions.withLimit (o : ParseOptions) (n : Nat) : ParseOptions := { o with maxNesting := n }

/-- A parse has failed because constructs are nested too deep. -/
def failsTooDeep : Except ParseFailure ParseOutput → Bool
  | .error ⟨.nestingTooDeep _, _, _⟩ => true
  | _ => false

/-! ## Being cut off -/

/-- The last thing reported is that constructs are nested too deep, and what was reported before has
been reported in the other place too. -/
def Progress.IsCutOff (q q' : Progress) : Prop :=
  ∃ (r : Progress) (d : Diagnostic), q = r.report d ∧ d.code = .nestingTooDeep ∧
    r.queue.toList <+: q'.queue.toList

/-- Runs are alike if they are the same, also where they are endless, unless the first one is cut
off. -/
def Likeness.cutOff (n m : Nat) : Likeness where
  symbol := Eq
  progress := Eq
  failed f q f'? q' := f = .failed (.nestingTooDeep n) ∧ q.IsCutOff q' ∨
    f = .endless ∧ f'? = some .endless ∧ q = q'
  limit := m
  normal_eq h := congrArg (·.token.normal) h
  text_eq_iff := by
    rintro s _ t _ rfl rfl - -
    rfl
  lookahead h := congrArg Progress.lookahead h
  length_ahead h := congrArg (·.ahead.length) h
  advance h := congrArg Progress.advance h
  report hp hd := hp ▸ hd.eq ▸ rfl
  count hp _ := hp ▸ rfl
  endless hq := .inr ⟨rfl, rfl, hq⟩
  failed_later := by
    rintro f q q' f'? r' (⟨hf, r, d, hq, hd, hle⟩ | ⟨-, hf', -⟩) hlater
    · exact .inl ⟨hf, r, d, hq, hd, hle.trans hlater⟩
    · cases hf'

section

variable {o : ParseOptions} {kind : UnitKind} {text : String} {n m : Nat}

/-- Where no level is left, the run is cut off in whatever the other one does. -/
theorem alike_nested_cutOff (o : ParseOptions) (n m levels : Nat) (x : Nested) :
    Alike (.cutOff n m) (nested (o.withLimit n) 0 x) (nested (o.withLimit m) levels x) := by
  refine ⟨?_⟩
  rintro p _ rfl
  have hreach := ((reliable_nested (o.withLimit m) levels).composed x).reaches p
  refine .failed (f := .failed (.nestingTooDeep n)) (.inl ⟨rfl, p, _, rfl, rfl, ?_⟩)
  exact hreach.reports_grow

/-- Of two readings the first one is the same as the second one, or it was cut off in it. -/
inductive Cuts (n : Nat) :
    Except Stop Node × Progress → Except Stop Node × Progress → Prop where
  | same {x : Except Stop Node × Progress} (h : ∀ l, x.1 ≠ .error (.failed (.nestingTooDeep l))) :
    Cuts n x x
  | tooDeep {q : Progress} {x' : Except Stop Node × Progress} (h : q.IsCutOff x'.2) :
    Cuts n (.error (.failed (.nestingTooDeep n)), q) x'

theorem cuts_of_ends {x x' : Except Stop Node × Progress}
    (h : (Likeness.cutOff n m).Ends (Comparable.rel (.cutOff n m)) x x') : Cuts n x x' := by
  cases h with
  | @answered t t' q q' ht hq =>
    have ht : t = t' := Tree.Corresponds.eq ht
    have hq : q = q' := hq
    subst ht hq
    exact .same fun _ => nofun
  | @failed f q q' y hf =>
    obtain ⟨rfl, hcut⟩ | ⟨rfl, hy, rfl⟩ := hf
    · exact .tooDeep hcut
    · cases y with
      | ok t => cases hy
      | error f' =>
        cases hy
        exact .same fun _ => nofun

theorem cuts_compilationUnit (o : ParseOptions) (kind : UnitKind) (h : n ≤ m) (p : Progress) :
    Cuts n ((compilationUnit (o.withLimit n) kind).exec p)
      ((compilationUnit (o.withLimit m) kind).exec p) := by
  by_cases hstart : p.lookahead.token ∈ startOf kind
  · have hsame : (o.withLimit n).SameGrammar (o.withLimit m) := ⟨rfl, rfl⟩
    have := hsame.alike (L := .cutOff n m)
    have hbase := alike_nested_cutOff o n m (m - n)
    exact cuts_of_ends (ends_compilationUnit rfl h hbase (p := p) rfl hstart)
  -- Nothing is nested in a unit that does not start like its kind.
  · rw [exec_compilationUnit_of_not_mem hstart, exec_compilationUnit_of_not_mem hstart]
    exact .same fun _ => nofun

/-- What being cut off means for the parses. -/
theorem Cuts.outcomes {x x' : Except Stop Node × Progress} (h : Cuts n x x')
    (o : LexicalOptions) (text : String) :
    (∀ out, outcomeOf o text x = .ok out → outcomeOf o text x' = .ok out) ∧
    (∀ e, outcomeOf o text x = .error e → e.failure = .invalidStart →
      outcomeOf o text x' = .error e) ∧
    (failsTooDeep (outcomeOf o text x') → failsTooDeep (outcomeOf o text x)) ∧
    (failsTooDeep (outcomeOf o text x) → ∃ earlier d, x.2.queue.toList = earlier ++ [d] ∧
      d.code = .nestingTooDeep ∧ earlier <+: x'.2.queue.toList) := by
  cases h with
  | same hne =>
    refine ⟨fun _ => id, fun _ he _ => he, id, fun hdeep => ?_⟩
    rcases x with ⟨((_ | l) | _) | tree, q⟩
    · cases hdeep
    · exact absurd rfl (hne l)
    · cases hdeep
    · cases hdeep
  | @tooDeep q x' hcut =>
    obtain ⟨r, d, rfl, hd, hle⟩ := hcut
    refine ⟨fun _ => nofun, fun e he hf => ?_, fun _ => rfl, fun _ => ?_⟩
    · cases he
      cases hf
    · exact ⟨_, d, Queue.toList_push _ _, hd, hle⟩

/-! ## Enough levels -/

theorem length_ahead_startOfUnit (o : LexicalOptions) (text : String) :
    (startOfUnit o text).ahead.length = (tokenize o text).words.length := by
  obtain ⟨e, he, -⟩ := semantic_eq_words o text
  rw [← rest_startOfUnit, Progress.rest] at he
  have hlength := congrArg List.length he
  rw [List.length_cons, List.length_map, List.length_append, List.length_singleton] at hlength
  exact Nat.succ.inj hlength

/-- No construct is nested deeper than there are symbols. -/
theorem not_failsTooDeep_of_length_le (h : (tokenize o.lexical text).words.length ≤ o.maxNesting) :
    failsTooDeep (parse o kind text) = false := by
  rw [parse_eq_outcomeOf]
  by_cases hstart : (startOfUnit o.lexical text).lookahead.token ∈ startOf kind
  · rw [exec_compilationUnit_of_mem hstart]
    have hanswers := answers_unitRule o hstart _ (closed_startOfUnit o.lexical text) rfl
      (by rw [length_ahead_startOfUnit]; omega)
    unfold AnswersFrom at hanswers
    rcases hx : (unitRule o (startOfUnit o.lexical text).lookahead.token).exec
      (startOfUnit o.lexical text) with ⟨stop | tree, q⟩ <;> rw [hx] at hanswers
    · rw [hanswers]
      rfl
    · rfl
  · rw [exec_compilationUnit_of_not_mem hstart]
    rfl

end

/-! ## The limit -/

/-- The limit on nesting only cuts off, it never changes a parse. With a higher limit, a parse that
came to a tree or did not start comes to the same end; one that is still nested too deep was so with
the lower limit; and one that was cut off by the lower limit had reported the same till then. No
parse is nested too deep if its limit is not below the number of symbols in front of the end of the
source. -/
theorem parse_withLimit {n m : Nat} (h : n ≤ m) (o : ParseOptions) (kind : UnitKind)
    (text : String) :
    (∀ out, parse (o.withLimit n) kind text = .ok out →
      parse (o.withLimit m) kind text = .ok out) ∧
    (∀ e, parse (o.withLimit n) kind text = .error e → e.failure = .invalidStart →
      parse (o.withLimit m) kind text = .error e) ∧
    (failsTooDeep (parse (o.withLimit m) kind text) →
      failsTooDeep (parse (o.withLimit n) kind text)) ∧
    (failsTooDeep (parse (o.withLimit n) kind text) →
      ∃ earlier d, parseReports (o.withLimit n) kind text = earlier ++ [d] ∧
        d.code = .nestingTooDeep ∧ earlier <+: parseReports (o.withLimit m) kind text) ∧
    ((tokenize o.lexical text).words.length ≤ n →
      failsTooDeep (parse (o.withLimit n) kind text) = false) := by
  have hcuts := cuts_compilationUnit o kind h (startOfUnit o.lexical text)
  obtain ⟨hok, hstart, hdeep, hearlier⟩ := hcuts.outcomes o.lexical text
  rw [parseReports_eq, parseReports_eq, parse_eq_outcomeOf (o.withLimit m)]
  have hparse : parse (o.withLimit n) kind text = _ := parse_eq_outcomeOf (o.withLimit n) kind text
  refine ⟨?_, ?_, ?_, ?_, not_failsTooDeep_of_length_le (o := o.withLimit n)⟩
  all_goals rw [hparse]
  · exact hok
  · exact hstart
  · exact hdeep
  · exact hearlier

/-- Parentheses may be cut off, but only by a limit that is too low for them. -/
theorem parse_withLimit_parentheses :
    failsTooDeep (parse (.withLimit {} 2) .any "MODULE m; BEGIN x := (1) END m.") = true ∧
      failsTooDeep (parse (.withLimit {} 3) .any "MODULE m; BEGIN x := (1) END m.") = false ∧
      ∃ earlier d, parseReports (.withLimit {} 2) .any "MODULE m; BEGIN x := (1) END m." =
          earlier ++ [d] ∧ d.code = .nestingTooDeep ∧
        earlier <+: parseReports (.withLimit {} 3) .any "MODULE m; BEGIN x := (1) END m." := by
  have hdeep :
      failsTooDeep (parse (.withLimit {} 2) .any "MODULE m; BEGIN x := (1) END m.") = true := by
    decide +kernel
  have h := parse_withLimit (n := 2) (m := 3) (by decide) {} .any "MODULE m; BEGIN x := (1) END m."
  exact ⟨hdeep, by decide +kernel, h.2.2.2.1 hdeep⟩

end Modula
