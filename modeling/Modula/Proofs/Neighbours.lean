import Mathlib.Data.List.Chain
import Modula.Proofs.NestingLimit
import Modula.Proofs.Omissions
import Modula.Proofs.Sentences

/-!
# Neighbours in a sentence

What may stand directly behind a separator and behind `RETURN`, in the sentences of the grammar. The
grammar is checked one production after the other: where one thing ends with such a token and
another one comes behind it, this starts with a token that may stand there.
-/

namespace Modula

open Grammar

/-- The tokens of which it is said what may stand behind them. -/
def watched : TokenSet := tokens [.semicolon, .kwDo, .kwReturn]

/-- What may stand behind a token, if it is one of those. -/
def Token.behind : Token → TokenSet
  | kwReturn => allBut [.kwDo]
  | _ => behindSeparator

/-- One symbol may stand behind the other. -/
def MayPrecede (s t : Symbol) : Prop := s.token ∈ watched → t.token ∈ s.token.behind

/-! ## What things end with -/

/-- The watched tokens that a nonterminal can end with. -/
def Nonterminal.last : Nonterminal → TokenSet
  | importClause | definition | declaration | procedureDeclaration => tokens [.semicolon]
  | statement | statementSequence | caseBranch => tokens [.kwReturn]
  | _ => ∅

namespace Ebnf

/-- The watched tokens that an expression of the grammar can end with. -/
def last : Ebnf → TokenSet
  | oneOf t ts => tokens ((t :: ts).filter watched.contains)
  | ident _ | empty | closed _ _ => ∅
  | seq a b => if isNullable b then last a ∪ last b else last b
  | either a b => last a ∪ last b
  | many a => last a
  | rule n => n.last

/-- Behind the first thing the second one may stand. -/
def mayPrecede (a b : Ebnf) : Bool :=
  [Token.semicolon, .kwDo, .kwReturn].all fun t => !a.last.contains t || b.first.isSubsetOf t.behind

/-- Things that come one behind the other may stand there. -/
def isOrderly : Ebnf → Bool
  | oneOf _ _ | ident _ | empty | rule _ => true
  | seq a b => isOrderly a && isOrderly b && mayPrecede a b
  | either a b => isOrderly a && isOrderly b
  | many a => isOrderly a && mayPrecede a a
  | closed _ body => isOrderly body && mayPrecede body (ident none)

end Ebnf

/-- The table agrees with the productions, and these are orderly. -/
theorem last_production {d : Dialect} (hd : d.isTolerant = false) (n : Nonterminal) :
    (production d n).last.isSubsetOf n.last = true ∧ (production d n).isOrderly = true := by
  rcases d with ⟨records, isTolerant⟩
  obtain rfl : isTolerant = false := hd
  cases n with
  | typeDefinition part => cases part <;> cases records <;> decide +kernel
  | _ => cases records <;> decide +kernel

/-! ## Sentences -/

/-- A watched token at the end of the symbols is one that the expression can end with. -/
def Ebnf.EndsWith (a : Ebnf) (u : List Symbol) : Prop :=
  ∀ s ∈ u.getLast?, s.token ∈ watched → s.token ∈ a.last

section

variable {d : Dialect} {a b : Ebnf} {u v : List Symbol}

theorem Ebnf.EndsWith.seq (hu : a.EndsWith u) (hv : b.EndsWith v) (hb : Derives d b v) :
    (Ebnf.seq a b).EndsWith (u ++ v) := by
  intro s hs hw
  unfold Ebnf.last
  cases v with
  | nil =>
    rw [if_pos hb.isNullable]
    rw [List.append_nil] at hs
    exact TokenBitmap.mem_union.2 (.inl (hu s hs hw))
  | cons t v =>
    rw [List.getLast?_append_of_ne_nil _ (List.cons_ne_nil t v)] at hs
    have hlast := hv s hs hw
    split
    · exact TokenBitmap.mem_union.2 (.inr hlast)
    · exact hlast

theorem Ebnf.EndsWith.precedes (hu : a.EndsWith u) (hv : Derives d b v)
    (hab : a.mayPrecede b = true) : ∀ s ∈ u.getLast?, ∀ t ∈ v.head?, MayPrecede s t := by
  intro s hs t ht hw
  obtain ⟨v, rfl⟩ : ∃ w, v = t :: w := by
    cases v with
    | nil => cases ht
    | cons r v => exact ⟨v, by rw [Option.mem_some_iff.1 ht]⟩
  have hpair := List.all_eq_true.1 hab s.token (TokenBitmap.mem_ofList.1 hw)
  rw [show a.last.contains s.token = true from hu s hs hw, Bool.not_true, Bool.false_or] at hpair
  exact TokenBitmap.isSubsetOf_iff.1 hpair _ hv.mem_first

theorem Dialect.Reads.mem {ts : List Token} {t : Token} (hd : d.isTolerant = false)
    (h : d.Reads ts t) : t ∈ ts :=
  h.resolve_right fun h => by rw [hd] at h; cases h.1

theorem not_mem_watched {t : Token} (hd : d.isTolerant = false) (h : d.Reads identifiers t) :
    t ∉ watched := by
  have hall : ∀ t : Token, t ∈ identifiers → t ∉ watched := by
    intro t
    cases t <;> decide
  exact hall t (h.mem hd)

/-- A name is not one of the tokens of which it is said what may stand behind them. -/
theorem Derives.name_not_mem_watched {text? : Option String} {s : Symbol} (hd : d.isTolerant = false)
    (h : Derives d (.ident text?) [s]) : s.token ∉ watched := by
  cases h with
  | ident _ h => exact not_mem_watched hd h

/-- A body between its name in front and its name behind. -/
theorem Ebnf.EndsWith.closed {spelled : Option String} {s t : Symbol} (hend : a.EndsWith u)
    (hd : d.isTolerant = false) (hs : Derives d (.ident Option.none) [s])
    (ht : Derives d (.ident spelled) [t]) (hclose : a.mayPrecede (.ident Option.none) = true)
    (hu : u.IsChain MayPrecede) : (s :: u ++ [t]).IsChain MayPrecede := by
  have ht' : Derives d (.ident Option.none) [t] := by
    cases ht with
    | ident _ h => exact .ident t h nofun
  have hut : (u ++ [t]).IsChain MayPrecede :=
    List.isChain_append.2 ⟨hu, .singleton t, hend.precedes ht' hclose⟩
  rw [List.cons_append, ← List.singleton_append]
  refine List.isChain_append.2 ⟨.singleton s, hut, fun r hr _ _ hw => ?_⟩
  obtain rfl := Option.mem_some_iff.1 hr
  exact absurd hw (hs.name_not_mem_watched hd)

/-- What an orderly expression derives in the strict dialect. -/
theorem Derives.orderly (hd : d.isTolerant = false) (h : Derives d a u)
    (ha : a.isOrderly = true) : a.EndsWith u ∧ u.IsChain MayPrecede := by
  induction h with
  | oneOf s h =>
    refine ⟨fun t ht hw => ?_, .singleton s⟩
    obtain rfl := Option.mem_some_iff.1 ht
    exact TokenBitmap.mem_ofList.2 (List.mem_filter.2 ⟨h.mem hd, hw⟩)
  | ident s h =>
    refine ⟨fun t ht hw => ?_, .singleton s⟩
    obtain rfl := Option.mem_some_iff.1 ht
    exact absurd hw (not_mem_watched hd h)
  | empty => exact ⟨nofun, .nil⟩
  | seq hu hv ihu ihv =>
    unfold Ebnf.isOrderly at ha
    simp only [Bool.and_eq_true] at ha
    obtain ⟨⟨ha, hb⟩, hab⟩ := ha
    obtain ⟨hendu, hu'⟩ := ihu ha
    obtain ⟨hendv, hv'⟩ := ihv hb
    exact ⟨hendu.seq hendv hv, List.isChain_append.2 ⟨hu', hv', hendu.precedes hv hab⟩⟩
  | left _ ih =>
    obtain ⟨hend, hu⟩ := ih (Bool.and_eq_true_iff.1 ha).1
    exact ⟨fun s hs hw => TokenBitmap.mem_union.2 (.inl (hend s hs hw)), hu⟩
  | right _ ih =>
    obtain ⟨hend, hu⟩ := ih (Bool.and_eq_true_iff.1 ha).2
    exact ⟨fun s hs hw => TokenBitmap.mem_union.2 (.inr (hend s hs hw)), hu⟩
  | none => exact ⟨nofun, .nil⟩
  | @more a u v hu hv ihu ihv =>
    obtain ⟨hone, haa⟩ := Bool.and_eq_true_iff.1 ha
    obtain ⟨hendu, hu'⟩ := ihu hone
    obtain ⟨hendv, hv'⟩ := ihv ha
    refine ⟨fun s hs hw => ?_, List.isChain_append.2 ⟨hu', hv', hendu.precedes hv haa⟩⟩
    have hlast := hendu.seq hendv hv s hs hw
    unfold Ebnf.last at hlast
    exact (TokenBitmap.mem_union.1 hlast).elim id id
  | @rule n u _ ih =>
    obtain ⟨hsub, horderly⟩ := last_production hd n
    obtain ⟨hend, hu⟩ := ih horderly
    exact ⟨fun s hs hw => TokenBitmap.isSubsetOf_iff.1 hsub _ (hend s hs hw), hu⟩
  | @closed spelled body u s t hs hu ht ihs ihu iht =>
    obtain ⟨hbody, hclose⟩ := Bool.and_eq_true_iff.1 ha
    obtain ⟨hendu, hu'⟩ := ihu hbody
    refine ⟨fun r hr hw => ?_, hendu.closed hd hs ht hclose hu'⟩
    rw [← List.cons_append, List.getLast?_append_of_ne_nil _ (List.cons_ne_nil t [])] at hr
    obtain rfl := Option.mem_some_iff.1 hr
    exact absurd hw (ht.name_not_mem_watched hd)

end

/-! ## Sources without a fault -/

section

variable {o : ParseOptions} {kind : UnitKind} {text : String} {out : ParseOutput}

/-- A parse that is not cut off makes no difference to a higher limit. -/
theorem parse_withLimit_eq_ok {n : Nat} (hn : o.maxNesting ≤ n)
    (hparse : parse o kind text = .ok out) : parse (o.withLimit n) kind text = .ok out := by
  have hcuts := cuts_compilationUnit o kind hn (startOfUnit o.lexical text)
  rw [parse_eq_outcomeOf] at hparse ⊢
  exact (hcuts.outcomes o.lexical text).1 out hparse

theorem reports_tokenize_eq_nil (hparse : parse o kind text = .ok out) (hclean : out.reports = []) :
    (tokenize o.lexical text).reports = [] := by
  refine List.eq_nil_iff_forall_not_mem.2 fun e he => ?_
  have hmem := (mem_reports_of_parse_eq_ok hparse).1 e he
  rw [hclean] at hmem
  cases hmem

/-- A source that is parsed without a fault is a sentence of the strict dialect, however low the
limit on nesting is. -/
theorem words_mem_sentences (hparse : parse o kind text = .ok out) (hclean : out.reports = []) :
    (tokenize o.lexical text).words ∈ o.strict.sentences := by
  have hlex := reports_tokenize_eq_nil hparse hclean
  have hstart := startsLike_of_parse_eq_ok hparse
  generalize hn : max o.maxNesting ((tokenize o.lexical text).words.length + 1) = n
  have hparse' : parse (o.withLimit n) kind text = .ok out :=
    parse_withLimit_eq_ok (by omega) hparse
  have hlength :
      (tokenize (o.withLimit n).lexical text).words.length < (o.withLimit n).maxNesting := by
    change (tokenize o.lexical text).words.length < n
    omega
  have hverdict : Verdict o.strict (o.withLimit n) kind text :=
    verdict_of_startsLike rfl hstart hlength fun _ => hlex
  cases hverdict with
  | sentence hwords => exact hwords
  | deadEnd _ u s v e later _ _ hfaults =>
    rw [parseReports_of_parse_eq_ok hparse', hclean] at hfaults
    cases hfaults

/-- Each symbol of such a source may precede the next one. -/
theorem isChain_semantic (hparse : parse o kind text = .ok out) (hclean : out.reports = []) :
    (tokenize o.lexical text).semantic.IsChain MayPrecede := by
  obtain ⟨e, he, -⟩ := semantic_eq_words o.lexical text
  obtain ⟨hend, hchain⟩ := Derives.orderly rfl (words_mem_sentences hparse hclean) rfl
  rw [he]
  refine List.isChain_append.2 ⟨hchain, .singleton e, fun s hs _ _ hw => ?_⟩
  exact absurd (hend s hs hw) (Bool.eq_false_iff.1 (TokenBitmap.contains_empty _))

end

end Modula
