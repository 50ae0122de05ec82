import Modula.Proofs.ComposedRules
import Modula.Proofs.Stream

/-!
# How a parse ends

Whether a unit is read at all is decided by its first symbol, and whether it is read to its end by
the limit on nesting alone: every other fault is recovered from. The rules repeat a round only if
it has consumed a symbol, so recovery comes to an end, and no repetition is ever stopped for being
endless.
-/

namespace Modula

open Modula.Parser Modula.Grammar

/-! ## The faults on the way -/

/-- A fault behind which reading goes on. -/
def Diagnostic.IsPassed (d : Diagnostic) : Prop :=
  d.phase = .lexical ∨ d.code.isRecoverable = true

theorem Diagnostic.IsPassed.code_ne {d : Diagnostic} (h : d.IsPassed) :
    d.code ≠ .nestingTooDeep ∧ d.code ≠ .invalidStart := by
  unfold IsPassed phase at h
  revert h
  cases d.code <;> decide

namespace Progress

/-- Nothing was recorded but faults behind which reading goes on, and only lexical ones are still
to come into view. -/
structure Passing (p : Progress) : Prop where
  recorded : ∀ d ∈ p.queue.toList, d.IsPassed
  ahead : ∀ i ∈ p.ahead, OnlyLexical i.reports

theorem Passing.report {p : Progress} (h : p.Passing) {d : Diagnostic} (hd : d.IsPassed) :
    (p.report d).Passing := by
  refine ⟨fun e he => ?_, h.ahead⟩
  rw [Progress.report, Queue.toList_push] at he
  rcases List.mem_append.1 he with he | he
  · exact h.recorded e he
  · rw [List.mem_singleton.1 he]
    exact hd

theorem Passing.advance {p : Progress} (h : p.Passing) : p.advance.Passing := by
  obtain ⟨hrec, hahead⟩ := h
  unfold Progress.advance
  split
  · exact ⟨hrec, hahead⟩
  · next i ahead hp =>
    rw [hp] at hahead
    obtain ⟨hi, hahead⟩ := List.forall_mem_cons.1 hahead
    refine ⟨fun d hd => ?_, hahead⟩
    rw [view, Queue.toList_append] at hd
    rcases List.mem_append.1 hd with hd | hd
    · exact hrec d hd
    · exact .inl (hi d hd)

theorem Steps.passing {p q : Progress} (h : p.Steps q) (hp : p.Passing) : q.Passing := by
  refine h.invariant ?_ hp
  intro r s hrs hr
  cases hrs with
  | advance => exact hr.advance
  | report hd => exact hr.report (.inr hd.isRecoverable)
  | count => exact ⟨hr.recorded, hr.ahead⟩

end Progress

theorem passing_startOfUnit (o : LexicalOptions) (text : String) :
    (startOfUnit o text).Passing := by
  have h := onlyLexical_reports o text
  rw [← foreseen_startOfUnit, Progress.foreseen] at h
  refine ⟨fun d hd => .inl (h d (List.mem_append_left _ hd)), fun i hi d hd => ?_⟩
  exact h d (List.mem_append_right _ (List.mem_flatMap.2 ⟨i, hi, hd⟩))

/-! ## The end of a unit -/

/-- The rule answers at the end of the source only. -/
def EndsAtEnd {α : Type} (m : Parser α) : Prop :=
  ∀ p a q, p.Closed → m.exec p = (.ok a, q) → q.lookahead.token = .endOfFile

theorem EndsAtEnd.bind {α β : Type} {n : Nat} {m : Parser α} {k : α → Parser β}
    (hm : Composed n m) (hk : ∀ a, EndsAtEnd (k a)) : EndsAtEnd (m >>= k) := by
  intro p b q hp h
  obtain ⟨a, r, hr, hq⟩ := exec_bind_eq_ok.1 h
  exact hk a r b q ((hm.steps hr).closed hp) hq

theorem EndsAtEnd.bind_pure {α β : Type} {m : Parser α} (hm : EndsAtEnd m) (f : α → β) :
    EndsAtEnd (m >>= fun a => pure (f a)) := by
  intro p b q hp h
  obtain ⟨a, r, hr, hq⟩ := exec_bind_eq_ok.1 h
  cases hq
  exact hm p a _ hp hr

/-- Whatever stands behind the dot of a unit is skipped. -/
theorem endsAtEnd_unitClosing (name : Node) : EndsAtEnd (unitClosing name) := by
  unfold unitClosing
  refine .bind (n := 0) inferInstance fun _ => .bind (n := 0) inferInstance fun _ => ?_
  intro p a q hp h
  rw [exec_ifAt] at h
  split at h
  · next ht =>
    cases h
    exact ht
  · rw [exec_bind, exec_unexpected, proceed_ok, exec_skipTo] at h
    cases h
    have hr := Progress.closed_report (d := surprise p (.token .endOfFile)) |>.2 hp
    rcases hr.token_skipTo unitEnd with ht | ht
    · exact ht
    · revert ht
      generalize ((p.report _).skipTo unitEnd).lookahead.token = t
      cases t <;> decide

/-- The rule for a unit that starts with the token. -/
def unitRule (o : ParseOptions) : Token → Parser Node
  | .kwDefinition => definitionModule o
  | .kwImplementation => do
    advance
    programModule o .implementationModule
  | _ => programModule o .programModule

instance composed_unitRule (o : ParseOptions) (t : Token) :
    Composed o.maxNesting (unitRule o t) := by
  unfold unitRule
  split <;> infer_instance

theorem endsAtEnd_unitRule (o : ParseOptions) (t : Token) : EndsAtEnd (unitRule o t) := by
  have hprogram (kind : Kind) : EndsAtEnd (programModule o kind) := by
    unfold programModule
    refine .bind (n := o.maxNesting) inferInstance fun name => ?_
    refine .bind (n := o.maxNesting) inferInstance fun imports => ?_
    refine .bind (n := o.maxNesting) inferInstance fun body => ?_
    exact (endsAtEnd_unitClosing name).bind_pure _
  unfold unitRule
  split
  · unfold definitionModule
    refine .bind (n := o.maxNesting) inferInstance fun _ => ?_
    refine .bind (n := o.maxNesting) inferInstance fun name => ?_
    refine .bind (n := o.maxNesting) inferInstance fun imports => ?_
    refine .bind (n := o.maxNesting) inferInstance fun definitions => ?_
    refine .bind (n := o.maxNesting) inferInstance fun _ => ?_
    exact (endsAtEnd_unitClosing name).bind_pure _
  · exact .bind (n := o.maxNesting) inferInstance fun _ => hprogram _
  · exact hprogram _

/-- Where the unit is accepted, it is read by the rule for its first token, whatever its kind. -/
theorem exec_compilationUnit_of_mem {o : ParseOptions} {kind : UnitKind} {p : Progress}
    (h : p.lookahead.token ∈ startOf kind) :
    (compilationUnit o kind).exec p = (unitRule o p.lookahead.token).exec p := by
  rw [compilationUnit, exec_bind, exec_lookahead, proceed_ok]
  rw [if_pos (show (startOf kind).contains p.lookahead.token = true from h)]
  unfold unitRule
  rfl

theorem exec_compilationUnit_of_not_mem {o : ParseOptions} {kind : UnitKind} {p : Progress}
    (h : p.lookahead.token ∉ startOf kind) :
    (compilationUnit o kind).exec p =
      (.error (.failed .invalidStart), p.report
        { faultBy .invalidStart p.lookahead with expected := Expected.set (startOf kind) }) := by
  rw [compilationUnit, exec_bind, exec_lookahead, proceed_ok]
  rw [if_neg (show ¬(startOf kind).contains p.lookahead.token = true from h)]
  rfl

/-- Reading a unit is never stopped for an endless repetition. -/
theorem exec_compilationUnit_ne_endless {o : ParseOptions} (kind : UnitKind) {p : Progress}
    (hp : p.Closed) : ((compilationUnit o kind).exec p).1 ≠ .error .endless := by
  by_cases h : p.lookahead.token ∈ startOf kind
  · rw [exec_compilationUnit_of_mem h]
    exact (composed_unitRule o p.lookahead.token).ne_endless hp
  · rw [exec_compilationUnit_of_not_mem h]
    exact nofun

/-- A unit that was read was read in steps, to the end of its source. -/
theorem steps_of_exec_compilationUnit {o : ParseOptions} {kind : UnitKind} {p q : Progress}
    {tree : Node} (hp : p.Closed) (h : (compilationUnit o kind).exec p = (.ok tree, q)) :
    p.Steps q ∧ q.lookahead.token = .endOfFile ∧ q.ahead = [] := by
  have hmem : p.lookahead.token ∈ startOf kind := by
    refine Classical.byContradiction fun hn => ?_
    rw [exec_compilationUnit_of_not_mem hn] at h
    cases h
  rw [exec_compilationUnit_of_mem hmem] at h
  have hsteps := (composed_unitRule o p.lookahead.token).steps h
  have hend := endsAtEnd_unitRule o _ p tree q hp h
  exact ⟨hsteps, hend, (hsteps.closed hp).ahead_eq_nil_iff.2 hend⟩

/-! ## The outcome of a parse -/

/-- The faults that a parse reports, with a tree or without. -/
def parseReports (o : ParseOptions) (kind : UnitKind) (text : String) : List Diagnostic :=
  match parse o kind text with
  | .ok out => out.reports
  | .error e => e.reports

/-- The source starts like a unit of the kind. -/
def StartsLike (o : LexicalOptions) (text : String) (kind : UnitKind) : Prop :=
  ∃ s later, (tokenize o text).semantic = s :: later ∧ s.token ∈ startOf kind

theorem startsLike_iff {o : LexicalOptions} {text : String} {kind : UnitKind} :
    StartsLike o text kind ↔ (startOfUnit o text).lookahead.token ∈ startOf kind := by
  unfold StartsLike
  rw [← rest_startOfUnit, Progress.rest]
  constructor
  · rintro ⟨s, later, h, hs⟩
    obtain ⟨rfl, -⟩ := List.cons.inj h
    exact hs
  · intro h
    exact ⟨_, _, rfl, h⟩

/-- The last report is the only one of its code. -/
def EndsWithOnly (code : Code) (reports : List Diagnostic) : Prop :=
  ∃ earlier d, reports = earlier ++ [d] ∧ d.code = code ∧ ∀ e ∈ earlier, e.code ≠ code

section

variable {o : ParseOptions} {kind : UnitKind} {text : String}

/-- What a parse of the text makes of a reading. -/
def outcomeOf (o : LexicalOptions) (text : String) :
    Except Stop Node × Progress → Except ParseFailure ParseOutput
  | (.ok tree, p) =>
    .ok
      { tree
        table := (tokenize o text).table
        stats := { p.queue.stats with lines := Text.lineCount text }
        reports := p.queue.toList
        trivia := p.trivia.toList }
  | (.error stop, p) =>
    .error
      { failure := stop.failure
        stats := { p.queue.stats with lines := Text.lineCount text }
        reports := p.queue.toList }

/-- When a unit has been read, all lexemes of its source have come into view. -/
theorem table_of_exec_ok {tree : Node} {p : Progress}
    (h : (compilationUnit o kind).exec (startOfUnit o.lexical text) = (.ok tree, p)) :
    p.table = (tokenize o.lexical text).table := by
  obtain ⟨hsteps, -, hahead⟩ :=
    steps_of_exec_compilationUnit (closed_startOfUnit o.lexical text) h
  rw [← foreseenTable_startOfUnit, ← hsteps.foreseenTable_eq, Progress.foreseenTable, hahead]
  rfl

/-- A parse reads a unit from its start. -/
theorem parse_eq_outcomeOf (o : ParseOptions) (kind : UnitKind) (text : String) :
    parse o kind text =
      outcomeOf o.lexical text ((compilationUnit o kind).exec (startOfUnit o.lexical text)) := by
  rcases hx : (compilationUnit o kind).exec (startOfUnit o.lexical text) with ⟨f | tree, p⟩
  all_goals
    have hr : readUnit o kind (Item.ofStream (Scanned.stream o.lexical text)) = _ := hx
    unfold parse
    dsimp only
    rw [hr]
  · rfl
  · dsimp only
    rw [table_of_exec_ok hx]
    rfl

theorem parse_of_exec_ok {tree : Node} {p : Progress}
    (h : (compilationUnit o kind).exec (startOfUnit o.lexical text) = (.ok tree, p)) :
    ∃ out, parse o kind text = .ok out ∧ out.tree = tree ∧ out.reports = p.queue.toList := by
  rw [parse_eq_outcomeOf, h]
  exact ⟨_, rfl, rfl, rfl⟩

theorem parse_of_exec_error {stop : Stop} {p : Progress}
    (h : (compilationUnit o kind).exec (startOfUnit o.lexical text) = (.error stop, p)) :
    ∃ e, parse o kind text = .error e ∧ e.failure = stop.failure ∧ e.reports = p.queue.toList := by
  rw [parse_eq_outcomeOf, h]
  exact ⟨_, rfl, rfl, rfl⟩

/-- A parse with a tree comes from a reading of the source. -/
theorem exec_of_parse_eq_ok {out : ParseOutput} (h : parse o kind text = .ok out) :
    ∃ p, (compilationUnit o kind).exec (startOfUnit o.lexical text) = (.ok out.tree, p) ∧
      out.reports = p.queue.toList := by
  rcases hx : (compilationUnit o kind).exec (startOfUnit o.lexical text) with ⟨f | tree, p⟩
  · obtain ⟨e, he, -⟩ := parse_of_exec_error hx
    rw [h] at he
    cases he
  · obtain ⟨out', hout, rfl, hr⟩ := parse_of_exec_ok hx
    rw [h] at hout
    cases hout
    exact ⟨p, rfl, hr⟩

theorem parseReports_eq (o : ParseOptions) (kind : UnitKind) (text : String) :
    parseReports o kind text =
      ((compilationUnit o kind).exec (startOfUnit o.lexical text)).2.queue.toList := by
  unfold parseReports
  rcases hx : (compilationUnit o kind).exec (startOfUnit o.lexical text) with ⟨f | tree, q⟩
  · obtain ⟨e, he, -, hr⟩ := parse_of_exec_error hx
    rw [he]
    exact hr
  · obtain ⟨out, hout, -, hr⟩ := parse_of_exec_ok hx
    rw [hout]
    exact hr

theorem parseReports_of_parse_eq_ok {out : ParseOutput} (hparse : parse o kind text = .ok out) :
    parseReports o kind text = out.reports := by
  rw [parseReports, hparse]

/-- Two kinds that read a source alike parse it alike. -/
theorem parse_congr {kind' : UnitKind}
    (h : (compilationUnit o kind).exec (startOfUnit o.lexical text) =
      (compilationUnit o kind').exec (startOfUnit o.lexical text)) :
    parse o kind text = parse o kind' text := by
  rw [parse_eq_outcomeOf, h, ← parse_eq_outcomeOf]

/-- A source that does not start like its kind: only its lexical faults and this one are
reported. -/
theorem parse_of_not_startsLike (h : ¬StartsLike o.lexical text kind) :
    ∃ e earlier d, parse o kind text = .error e ∧ e.failure = .invalidStart ∧
      e.reports = earlier ++ [d] ∧ d.code = .invalidStart ∧ OnlyLexical earlier := by
  rw [startsLike_iff] at h
  obtain ⟨e, he, hf, hr⟩ := parse_of_exec_error (exec_compilationUnit_of_not_mem h)
  rw [Progress.report, Queue.toList_push] at hr
  refine ⟨e, _, _, he, hf, hr, rfl, fun d hd => ?_⟩
  refine onlyLexical_reports o.lexical text d ?_
  rw [← foreseen_startOfUnit]
  exact List.mem_append_left _ hd

theorem startsLike_of_parse_eq_ok {out : ParseOutput} (hparse : parse o kind text = .ok out) :
    StartsLike o.lexical text kind := by
  refine Classical.byContradiction fun h => ?_
  obtain ⟨e, -, -, he, -⟩ := parse_of_not_startsLike h
  rw [hparse] at he
  cases he

/-- How the parse of a source ends that starts like its kind. -/
inductive Ends (o : ParseOptions) (kind : UnitKind) (text : String) : Prop where
  /-- With a tree, at the end of the source. -/
  | withTree (out : ParseOutput) (p : Progress) (hparse : parse o kind text = .ok out)
    (hread : readUnit o kind (Item.ofStream (Scanned.stream o.lexical text)) = (.ok out.tree, p))
    (hend : p.lookahead.token = .endOfFile ∧ p.ahead = [])
    (hcodes : ∀ d ∈ out.reports, d.code ≠ .nestingTooDeep ∧ d.code ≠ .invalidStart)
  /-- Where constructs are nested too deep. -/
  | tooDeep (e : ParseFailure) (hparse : parse o kind text = .error e)
    (hlimit : e.failure = .nestingTooDeep o.maxNesting)
    (hlast : EndsWithOnly .nestingTooDeep e.reports)

theorem ends_of_startsLike (h : StartsLike o.lexical text kind) : Ends o kind text := by
  rw [startsLike_iff] at h
  have hclosed := closed_startOfUnit o.lexical text
  have hpassing := passing_startOfUnit o.lexical text
  have hunit := composed_unitRule o (startOfUnit o.lexical text).lookahead.token
  have hexec := exec_compilationUnit_of_mem (o := o) h
  obtain ⟨tree, q, hx, hsteps⟩ | ⟨q, hsteps, hx⟩ := hunit.answers_or_gives_up hclosed
  all_goals rw [← hexec] at hx
  · obtain ⟨out, hout, rfl, hr⟩ := parse_of_exec_ok hx
    refine .withTree out q hout hx (steps_of_exec_compilationUnit hclosed hx).2 fun d hd => ?_
    rw [hr] at hd
    exact ((hsteps.passing hpassing).recorded d hd).code_ne
  · obtain ⟨e, he, hf, hr⟩ := parse_of_exec_error hx
    rw [Progress.report, Queue.toList_push] at hr
    refine .tooDeep e he hf ⟨_, _, hr, rfl, fun d hd => ?_⟩
    exact ((hsteps.passing hpassing).recorded d hd).code_ne.1

end

/-- Recovery comes to an end, and two things alone decide how. Every round of the grammar that is to
be repeated has consumed a symbol, and the rules for units repeat no others, so that reading is never
stopped for an endless repetition. A parse fails at once if the source does not start like its kind;
this is then the only fault of the grammar that is reported, and the last report. Otherwise it reads
to the end of the source, unless constructs are nested too deep, which is then reported once, and
last. Kinds that accept the source make no difference. -/
theorem parse_ends (o : ParseOptions) (kind : UnitKind) (text : String) :
    (∀ (levels : Nat) (α : Type) (round : α → Parser (Round α)),
      RoundOf o (nested o levels) round → Consuming round) ∧
    (Composed o.maxNesting (definitionModule o) ∧
      ∀ k, Composed o.maxNesting (programModule o k)) ∧
    (readUnit o kind (Item.ofStream (Scanned.stream o.lexical text))).1 ≠ .error .endless ∧
    ((∃ e, parse o kind text = .error e ∧ e.failure = .invalidStart) ↔
      ¬StartsLike o.lexical text kind) ∧
    (∀ e, parse o kind text = .error e → e.failure = .invalidStart →
      ∃ earlier d, e.reports = earlier ++ [d] ∧ d.code = .invalidStart ∧ OnlyLexical earlier) ∧
    (StartsLike o.lexical text kind → Ends o kind text) ∧
    ∀ kind', StartsLike o.lexical text kind → StartsLike o.lexical text kind' →
      parse o kind text = parse o kind' text := by
  have hinvalid : ∀ e, parse o kind text = .error e → e.failure = .invalidStart →
      ¬StartsLike o.lexical text kind := by
    intro e he hf hstart
    cases ends_of_startsLike hstart with
    | withTree out p hparse => rw [hparse] at he; cases he
    | tooDeep e' hparse hlimit =>
      rw [hparse] at he
      cases he
      rw [hlimit] at hf
      cases hf
  refine ⟨fun levels α round hround => hround.consuming (n := o.maxNesting),
    ⟨inferInstance, fun k => inferInstance⟩,
    exec_compilationUnit_ne_endless kind (closed_startOfUnit o.lexical text),
    ⟨?_, ?_⟩, ?_, ends_of_startsLike, ?_⟩
  · rintro ⟨e, he, hf⟩
    exact hinvalid e he hf
  · intro h
    obtain ⟨e, -, -, he, hf, -⟩ := parse_of_not_startsLike h
    exact ⟨e, he, hf⟩
  · intro e he hf
    obtain ⟨e', earlier, d, he', -, hr, hd⟩ := parse_of_not_startsLike (hinvalid e he hf)
    rw [he] at he'
    cases he'
    exact ⟨earlier, d, hr, hd⟩
  · intro kind' h h'
    refine parse_congr ?_
    rw [exec_compilationUnit_of_mem (startsLike_iff.1 h),
      exec_compilationUnit_of_mem (startsLike_iff.1 h')]

end Modula
