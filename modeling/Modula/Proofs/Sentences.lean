import Modula.Proofs.TracksUnits

/-!
# Sentences and faults

What a parse says of a source, in terms of the grammar. Without any fault it accepts the sentences
of the strict dialect. The first symbol that it reports as unexpected is the first one with which
the source cannot be gone on with to a sentence of the tolerant dialect. Both need enough levels of
nesting, for which more than there are symbols are sufficient.
-/

namespace Modula

open Modula.Parser Modula.Grammar

/-- The grammar as it is documented. -/
def ParseOptions.strict (o : ParseOptions) : Dialect := ⟨o.records, false⟩

/-- The grammar with its tolerance. -/
def ParseOptions.tolerant (o : ParseOptions) : Dialect := ⟨o.records, true⟩

/-- The sentences of a dialect: its compilation units. -/
def Dialect.sentences (d : Dialect) : Language Symbol := (Ebnf.rule .compilationUnit).language d

/-- The tokens are the start of those of a sentence and the end of the source. -/
def Dialect.IsViable (d : Dialect) (ts : List Token) : Prop :=
  ∃ w ∈ d.sentences, ts <+: w.map Symbol.token ++ [.endOfFile]

/-! ## Tokens alone -/

namespace Ebnf

/-- Whether it makes no difference how identifiers are spelled. -/
def isUnspelled : Ebnf → Bool
  | oneOf _ _ | empty | rule _ => true
  | ident text? => text?.isNone
  | seq a b | either a b => isUnspelled a && isUnspelled b
  | many a => isUnspelled a
  | closed spelled a => !spelled && isUnspelled a

theorem isUnspelled_production {d : Dialect} (hd : d.isTolerant = true) (n : Nonterminal) :
    (production d n).isUnspelled = true := by
  rcases d with ⟨records, isTolerant⟩
  obtain rfl : isTolerant = true := hd
  cases n with
  | typeDefinition part => cases part <;> cases records <;> decide
  | _ => cases records <;> decide

end Ebnf

/-- In the tolerant dialect it depends on the tokens alone what is derived. -/
theorem Derives.of_tokens {d : Dialect} (hd : d.isTolerant = true) {a : Ebnf} {u v : List Symbol}
    (h : Derives d a u) (ha : a.isUnspelled = true)
    (huv : u.map Symbol.token = v.map Symbol.token) : Derives d a v := by
  induction h generalizing v with
  | oneOf s hs =>
    obtain ⟨t, rfl, ht⟩ := List.map_eq_singleton_iff.1 huv.symm
    exact .oneOf t (ht ▸ hs)
  | ident s hs htext =>
    obtain ⟨t, rfl, ht⟩ := List.map_eq_singleton_iff.1 huv.symm
    refine .ident t (ht ▸ hs) fun text htext => ?_
    rw [Option.isNone_iff_eq_none.1 ha] at htext
    cases htext
  | empty =>
    rw [List.map_eq_nil_iff.1 huv.symm]
    exact .empty
  | seq _ _ iha ihb =>
    obtain ⟨ha, hb⟩ := Bool.and_eq_true_iff.1 ha
    rw [List.map_append] at huv
    obtain ⟨x, y, rfl, hx, hy⟩ := List.map_eq_append_iff.1 huv.symm
    exact .seq (iha ha hx.symm) (ihb hb hy.symm)
  | left _ ih => exact .left (ih (Bool.and_eq_true_iff.1 ha).1 huv)
  | right _ ih => exact .right (ih (Bool.and_eq_true_iff.1 ha).2 huv)
  | none =>
    rw [List.map_eq_nil_iff.1 huv.symm]
    exact .none
  | more _ _ iha ihm =>
    rw [List.map_append] at huv
    obtain ⟨x, y, rfl, hx, hy⟩ := List.map_eq_append_iff.1 huv.symm
    exact .more (iha ha hx.symm) (ihm ha hy.symm)
  | rule _ ih => exact .rule (ih (Ebnf.isUnspelled_production hd _) huv)
  | @closed spelled body u s t _ _ _ ihs ihu iht =>
    obtain ⟨hspelled, hbody⟩ := Bool.and_eq_true_iff.1 ha
    obtain rfl : spelled = false := by simpa using hspelled
    obtain ⟨s', w, rfl, hs, hw⟩ := List.map_eq_cons_iff.1 huv.symm
    rw [List.map_append] at hw
    obtain ⟨u', l, rfl, hu, hl⟩ := List.map_eq_append_iff.1 hw
    obtain ⟨t', rfl, ht⟩ := List.map_eq_singleton_iff.1 hl
    refine .closed s' t' (ihs rfl ?_) (ihu hbody hu.symm) (iht rfl ?_)
    · rw [List.map_singleton, List.map_singleton, hs]
    · rw [List.map_singleton, List.map_singleton, ht]

/-- A dead end of the tolerant dialect is one for the tokens alone. -/
theorem Ebnf.DeadEnd.not_isViable {d : Dialect} (hd : d.isTolerant = true) {u : List Symbol}
    {s : Symbol} (h : Ebnf.DeadEnd d (.rule .compilationUnit) unitEnd u s) :
    ¬d.IsViable ((u ++ [s]).map Symbol.token) := by
  rintro ⟨w, hw, hpre⟩
  obtain ⟨later, hlater⟩ := hpre
  -- the sentence is spelled like the symbols, as far as these go
  have hexists : ∃ z : List Symbol, z.map Symbol.token = later :=
    ⟨later.map fun t => ⟨t, "", .start⟩, by rw [List.map_map]; exact List.map_id later⟩
  obtain ⟨z, rfl⟩ := hexists
  rw [← List.map_append] at hlater
  obtain ⟨w', y, hsplit, hw', hy⟩ := List.map_eq_append_iff.1 hlater
  obtain ⟨e, rfl, he⟩ := List.map_eq_singleton_iff.1 hy
  have hend : BeginsIn unitEnd [e] := ⟨e, [], rfl, by rw [he]; decide⟩
  refine h.unviable w' [e] (Derives.of_tokens hd hw rfl hw'.symm) hend ?_
  rw [← hsplit]
  exact List.prefix_append _ _

theorem Ebnf.DeadEnd.isViable {d : Dialect} {F : TokenSet} {u : List Symbol} {s : Symbol}
    (h : Ebnf.DeadEnd d (.rule .compilationUnit) F u s) : d.IsViable (u.map Symbol.token) := by
  obtain ⟨z, hz⟩ := h.viable
  refine ⟨u ++ z, hz, ?_⟩
  rw [List.map_append, List.append_assoc]
  exact List.prefix_append _ _

/-! ## The outcome of a parse -/

section

variable {o : ParseOptions} {kind : UnitKind} {text : String} {d : Dialect}

theorem faults_startOfUnit (d : Dialect) (o : LexicalOptions) (text : String) :
    (startOfUnit o text).faults d = [] := by
  refine List.filter_eq_nil_iff.2 fun e he => ?_
  have hlex : e.phase = .lexical := by
    refine onlyLexical_reports o text e ?_
    rw [← foreseen_startOfUnit]
    exact List.mem_append_left _ he
  rw [Progress.counts_eq_false_of_lexical hlex]
  exact Bool.false_ne_true

theorem ready_startOfUnit {o : LexicalOptions}
    (h : d.isTolerant = false → (tokenize o text).reports = []) : (startOfUnit o text).Ready d := by
  refine ⟨closed_startOfUnit o text, (passing_startOfUnit o text).ahead, fun hd s hs => ?_⟩
  rw [rest_startOfUnit] at hs
  exact not_malformed_of_reports_eq_nil o text (h hd) s hs

/-- What a dialect has to say of a source. -/
inductive Verdict (d : Dialect) (o : ParseOptions) (kind : UnitKind) (text : String) : Prop where
  /-- The source is a sentence, and it is parsed without a fault. -/
  | sentence (hwords : (tokenize o.lexical text).words ∈ d.sentences) (out : ParseOutput)
    (hparse : parse o kind text = .ok out)
    (hfaults : (parseReports o kind text).filter (d.counts ·.code) = [])
  /-- The source is none, and the first fault is reported at a dead end. -/
  | deadEnd (hwords : (tokenize o.lexical text).words ∉ d.sentences) (u : List Symbol) (s : Symbol)
    (v : List Symbol) (e : Diagnostic) (later : List Diagnostic)
    (hsymbols : (tokenize o.lexical text).semantic = u ++ s :: v)
    (hdead : Ebnf.DeadEnd d (.rule .compilationUnit) unitEnd u s)
    (hfaults : (parseReports o kind text).filter (d.counts ·.code) = e :: later)
    (hplace : d.isTolerant = true → e.line = s.line ∧ e.column = s.column)

/-- Where the source is read to its end, the words are what has been read. -/
theorem words_of_rest_eq {tree : Node} {q : Progress} {u : List Symbol}
    (hstart : StartsLike o.lexical text kind)
    (hx : (compilationUnit o kind).exec (startOfUnit o.lexical text) = (.ok tree, q))
    (hq : q.Closed) (hrest : (startOfUnit o.lexical text).rest = u ++ q.rest) :
    (tokenize o.lexical text).words = u := by
  have hunit := exec_compilationUnit_of_mem (o := o) (startsLike_iff.1 hstart)
  have hend := endsAtEnd_unitRule o _ _ _ _ (closed_startOfUnit o.lexical text)
    (hunit.symm.trans hx)
  obtain ⟨e, he, -⟩ := semantic_eq_words o.lexical text
  rw [rest_startOfUnit, he, Progress.rest, hq.ahead_eq_nil_iff.2 hend] at hrest
  exact List.append_inj_left' hrest rfl

theorem Ebnf.DeadEnd.words_not_mem {u v : List Symbol} {s : Symbol}
    (h : Ebnf.DeadEnd d (.rule .compilationUnit) unitEnd u s)
    (hsymbols : (tokenize o.lexical text).semantic = u ++ s :: v) :
    (tokenize o.lexical text).words ∉ d.sentences := by
  intro hwords
  obtain ⟨e, he, hend⟩ := semantic_eq_words o.lexical text
  refine h.unviable _ [e] hwords ⟨e, [], rfl, by rw [hend]; decide⟩ ?_
  rw [← he, hsymbols]
  exact ⟨v, (List.append_cons u s v).symm⟩

theorem verdict_of_startsLike (ho : o.records = d.records)
    (hstart : StartsLike o.lexical text kind)
    (hn : (tokenize o.lexical text).words.length < o.maxNesting)
    (hlex : d.isTolerant = false → (tokenize o.lexical text).reports = []) :
    Verdict d o kind text := by
  have hmem := startsLike_iff.1 hstart
  have hunit : (startOfUnit o.lexical text).lookahead.token ∈ unitStart :=
    TokenBitmap.isSubsetOf_iff.1 (by cases kind <;> decide) _ hmem
  have hlength : (startOfUnit o.lexical text).rest.length ≤ o.maxNesting := by
    obtain ⟨e, he, -⟩ := semantic_eq_words o.lexical text
    rw [rest_startOfUnit, he, List.length_append]
    exact hn
  have hout := (tracks_unitRule ho (Nat.le_refl _) hunit).outcome _ (ready_startOfUnit hlex)
    hlength rfl
  rw [← exec_compilationUnit_of_mem hmem] at hout
  have hreports := parseReports_eq o kind text
  rcases hx : (compilationUnit o kind).exec (startOfUnit o.lexical text) with ⟨x, q⟩
  rw [hx] at hout hreports
  cases hout with
  | exact tree q u hrest hready hfaults h =>
    obtain ⟨out, hparse, -, -⟩ := parse_of_exec_ok hx
    refine .sentence ?_ out hparse ?_
    · rw [words_of_rest_eq hstart hx hready.closed hrest]
      exact h.derives
    · rw [hreports]
      exact hfaults.trans (faults_startOfUnit d o.lexical text)
  | dead x q u s v e later hrest hfaults hplace h =>
    rw [rest_startOfUnit] at hrest
    refine .deadEnd (h.words_not_mem hrest) u s v e later hrest h ?_ hplace
    rw [hreports]
    refine hfaults.trans ?_
    rw [faults_startOfUnit, List.nil_append]

/-! ## The first unexpected symbol -/

/-- The first symbol that is reported as unexpected is the first one with which the source cannot
be gone on with to a sentence of the tolerant dialect. -/
theorem first_unexpected_symbol (o : ParseOptions) (kind : UnitKind) (text : String)
    (hstart : StartsLike o.lexical text kind)
    (hn : (tokenize o.lexical text).words.length < o.maxNesting) :
    ((∀ e ∈ parseReports o kind text, e.code ≠ .unexpectedSymbol) ↔
      (tokenize o.lexical text).words ∈ o.tolerant.sentences) ∧
    ((tokenize o.lexical text).words ∉ o.tolerant.sentences →
      ∃ e u s v, (parseReports o kind text).find? (·.code = .unexpectedSymbol) = some e ∧
        (tokenize o.lexical text).semantic = u ++ s :: v ∧
        e.line = s.line ∧ e.column = s.column ∧
        o.tolerant.IsViable (u.map Symbol.token) ∧
        ¬o.tolerant.IsViable ((u ++ [s]).map Symbol.token)) := by
  have hcounts : (fun e : Diagnostic => o.tolerant.counts e.code) =
      fun e : Diagnostic => decide (e.code = .unexpectedSymbol) := rfl
  cases verdict_of_startsLike (d := o.tolerant) rfl hstart hn (fun h => by cases h) with
  | sentence hwords out hparse hfaults =>
    refine ⟨⟨fun _ => hwords, fun _ e he hcode => ?_⟩, fun h => absurd hwords h⟩
    rw [hcounts] at hfaults
    exact List.filter_eq_nil_iff.1 hfaults e he (by simpa using hcode)
  | deadEnd hwords u s v e later hsymbols hdead hfaults hplace =>
    obtain ⟨hline, hcolumn⟩ := hplace rfl
    rw [hcounts] at hfaults
    refine ⟨⟨fun h => ?_, fun h => absurd h hwords⟩, fun _ => ?_⟩
    · have hmem : e ∈ (parseReports o kind text).filter (·.code = .unexpectedSymbol) := by
        rw [hfaults]
        exact List.mem_cons_self
      obtain ⟨he, hcode⟩ := List.mem_filter.1 hmem
      exact absurd (by simpa using hcode) (h e he)
    · refine ⟨e, u, s, v, ?_, hsymbols, hline, hcolumn, hdead.isViable, hdead.not_isViable rfl⟩
      rw [← List.head?_filter, hfaults]
      rfl

/-- The assignment lacks its value, so nothing goes on from `END`. -/
theorem dead_end_of_missing_value :
    ∃ e u s v, (parseReports {} .any "MODULE m; BEGIN x := END m.").find?
          (·.code = .unexpectedSymbol) = some e ∧
        (tokenize {} "MODULE m; BEGIN x := END m.").semantic = u ++ s :: v ∧
        e.line = s.line ∧ e.column = s.column ∧
        (ParseOptions.tolerant {}).IsViable (u.map Symbol.token) ∧
        ¬(ParseOptions.tolerant {}).IsViable ((u ++ [s]).map Symbol.token) := by
  have hstart : StartsLike {} "MODULE m; BEGIN x := END m." .any :=
    startsLike_iff.2 (by decide +kernel)
  have hreported : (parseReports {} .any "MODULE m; BEGIN x := END m.").any
      (·.code = .unexpectedSymbol) = true := by decide +kernel
  obtain ⟨hiff, hfirst⟩ := first_unexpected_symbol {} .any "MODULE m; BEGIN x := END m." hstart
    (by decide +kernel)
  refine hfirst fun hwords => ?_
  obtain ⟨e, he, hcode⟩ := List.any_eq_true.1 hreported
  exact hiff.2 hwords e he (by simpa using hcode)

/-! ## Parses without a fault -/

/-- A step keeps the faults that were foreseen, and only faults of the grammar are added. -/
theorem Progress.Steps.mem_foreseen {p q : Progress} (h : p.Steps q) :
    (∀ e ∈ p.foreseen, e ∈ q.foreseen) ∧
      ∀ e ∈ q.foreseen, e ∈ p.foreseen ∨ e.phase = .syntactic := by
  refine h.invariant (motive := fun r => (∀ e ∈ p.foreseen, e ∈ r.foreseen) ∧
    ∀ e ∈ r.foreseen, e ∈ p.foreseen ∨ e.phase = .syntactic) ?_ ⟨fun _ => id, fun _ => .inl⟩
  rintro r s hrs ⟨hkept, hnew⟩
  cases hrs with
  | advance =>
    rw [Progress.foreseen_advance]
    exact ⟨hkept, hnew⟩
  | @report d hd =>
    have hmem (e : Diagnostic) : e ∈ (r.report d).foreseen ↔ e ∈ r.foreseen ∨ e = d := by
      rw [Progress.foreseen, Progress.foreseen, Progress.report, Queue.toList_push]
      simp only [List.mem_append, List.mem_singleton]
      exact or_right_comm
    refine ⟨fun e he => (hmem e).2 (.inl (hkept e he)), fun e he => ?_⟩
    rcases (hmem e).1 he with he | rfl
    · exact hnew e he
    · refine .inr ?_
      have hcode := hd.isRecoverable
      unfold Code.isRecoverable at hcode
      exact (of_decide_eq_true hcode).1
  | count => exact ⟨hkept, hnew⟩

/-- A sentence starts like a unit of some kind. -/
theorem startsLike_of_words (h : (tokenize o.lexical text).words ∈ d.sentences) :
    StartsLike o.lexical text .any := by
  obtain ⟨e, he, -⟩ := semantic_eq_words o.lexical text
  cases hwords : (tokenize o.lexical text).words with
  | nil =>
    rw [hwords] at h
    have hnull := Derives.isNullable h
    cases hnull
  | cons s w =>
    rw [hwords] at h he
    have hderives : Derives d (.rule .compilationUnit) (s :: w) := h
    have hfirst := hderives.mem_first
    exact ⟨s, w ++ [e], he, hfirst⟩

/-- What is reported of a source with a tree: the faults of its symbols, and faults of the
grammar. -/
theorem mem_reports_of_parse_eq_ok {out : ParseOutput} (hparse : parse o kind text = .ok out) :
    (∀ e ∈ (tokenize o.lexical text).reports, e ∈ out.reports) ∧
      ∀ e ∈ out.reports, e ∈ (tokenize o.lexical text).reports ∨ e.phase = .syntactic := by
  have hstart := startsLike_of_parse_eq_ok hparse
  have hunit := exec_compilationUnit_of_mem (o := o) (startsLike_iff.1 hstart)
  obtain ⟨q, hx, hreports⟩ := exec_of_parse_eq_ok hparse
  have hsteps := (composed_unitRule o _).steps (hunit.symm.trans hx)
  have hclosed := hsteps.closed (closed_startOfUnit o.lexical text)
  have hend := endsAtEnd_unitRule o _ _ _ _ (closed_startOfUnit o.lexical text)
    (hunit.symm.trans hx)
  have hq : q.foreseen = out.reports := by
    rw [Progress.foreseen, hclosed.ahead_eq_nil_iff.2 hend, hreports]
    exact List.append_nil _
  rw [← foreseen_startOfUnit, ← hq]
  exact hsteps.mem_foreseen

/-- Without any fault a parse accepts the sentences of the grammar. -/
theorem parse_accepts_iff (o : ParseOptions) (text : String)
    (hn : (tokenize o.lexical text).words.length < o.maxNesting) :
    (∃ out, parse o .any text = .ok out ∧ out.reports = []) ↔
      (tokenize o.lexical text).reports = [] ∧
        (tokenize o.lexical text).words ∈ o.strict.sentences := by
  constructor
  · rintro ⟨out, hparse, hreports⟩
    have hlex : (tokenize o.lexical text).reports = [] := by
      refine List.eq_nil_iff_forall_not_mem.2 fun e he => ?_
      have hmem := (mem_reports_of_parse_eq_ok hparse).1 e he
      rw [hreports] at hmem
      cases hmem
    refine ⟨hlex, ?_⟩
    have hstart := startsLike_of_parse_eq_ok hparse
    cases verdict_of_startsLike (d := o.strict) rfl hstart hn fun _ => hlex with
    | sentence hwords => exact hwords
    | deadEnd _ u s v e later _ _ hfaults =>
      rw [parseReports_of_parse_eq_ok hparse, hreports] at hfaults
      cases hfaults
  · rintro ⟨hlex, hwords⟩
    have hstart : StartsLike o.lexical text .any := startsLike_of_words hwords
    cases verdict_of_startsLike (d := o.strict) rfl hstart hn fun _ => hlex with
    | sentence _ out hparse hfaults =>
      refine ⟨out, hparse, List.eq_nil_iff_forall_not_mem.2 fun e he => ?_⟩
      rw [parseReports_of_parse_eq_ok hparse] at hfaults
      rcases (mem_reports_of_parse_eq_ok hparse).2 e he with hmem | hphase
      · rw [hlex] at hmem
        cases hmem
      · refine List.filter_eq_nil_iff.1 hfaults e he ?_
        exact decide_eq_true hphase
    | deadEnd hnot => exact absurd hwords hnot

/-- A parse without a fault shows that a module is a sentence. -/
theorem small_module_mem_sentences :
    (tokenize {} "MODULE m; BEGIN x := 1 END m.").words ∈ (ParseOptions.strict {}).sentences := by
  have hclean : ∃ out, parse {} .any "MODULE m; BEGIN x := 1 END m." = .ok out ∧
      out.reports = [] := by
    have hempty : (parseReports {} .any "MODULE m; BEGIN x := 1 END m.").isEmpty = true := by
      decide +kernel
    have hok : (parse {} .any "MODULE m; BEGIN x := 1 END m.").isOk = true := by decide +kernel
    cases hp : parse {} .any "MODULE m; BEGIN x := 1 END m." with
    | error e => rw [hp] at hok; cases hok
    | ok out =>
      rw [parseReports_of_parse_eq_ok hp] at hempty
      exact ⟨out, rfl, List.isEmpty_iff.1 hempty⟩
  exact ((parse_accepts_iff {} "MODULE m; BEGIN x := 1 END m." (by decide +kernel)).1 hclean).2

end

end Modula
