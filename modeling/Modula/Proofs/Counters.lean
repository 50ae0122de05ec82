import Modula.Proofs.ErrantSeverity

/-!
# The counters of diagnostics

For each phase one counter counts the errors and one the warnings. Each tells how many diagnostics
of its phase and kind have been recorded, up to the limit at which it stops. This holds after any
calls on a new queue, which record diagnostics or set other numbers.

It holds of the diagnostics of a parse too, since the queue of a parse is made by such calls. This
is shown by comparing the parse with itself: the rules of the grammar change the queue by recording
diagnostics and by counting, and in no other way.
-/

namespace Modula

open Modula.Parser Modula.Grammar

theorem Diagnostic.isError_eq_false_iff {d : Diagnostic} :
    d.isError = false ↔ d.severity = .warning := by
  unfold isError
  cases d.severity <;> decide

theorem Diagnostic.isError_iff {d : Diagnostic} :
    d.isError = true ↔ d.severity = .error ∨ d.severity = .fatal := by
  unfold isError
  cases d.severity <;> decide

/-- The number of errors of a phase among the diagnostics, or of warnings. -/
def diagnosticCount (phase : Phase) (isError : Bool) (ds : List Diagnostic) : Nat :=
  ds.countP fun d => d.phase = phase && d.isError == isError

theorem diagnosticCount_append (phase : Phase) (isError : Bool) (ds es : List Diagnostic) :
    diagnosticCount phase isError (ds ++ es) =
      diagnosticCount phase isError ds + diagnosticCount phase isError es :=
  List.countP_append

/-- No error of any phase is among the diagnostics if none of them is an error. -/
theorem diagnosticCount_error_eq_zero_iff {ds : List Diagnostic} :
    (∀ phase, diagnosticCount phase true ds = 0) ↔ ∀ d ∈ ds, d.isError = false := by
  unfold diagnosticCount
  simp only [List.countP_eq_zero]
  constructor
  · intro h d hd
    have := h d.phase d hd
    simpa using this
  · intro h phase d hd
    simp [h d hd]

namespace Statistics

/-- The counter for the errors of a phase, or for its warnings. -/
def counter (t : Statistics) : Phase → Bool → Nat
  | .lexical, false => t.lexicalWarnings
  | .lexical, true => t.lexicalErrors
  | .syntactic, false => t.syntaxWarnings
  | .syntactic, true => t.syntaxErrors
  | .semantic, false => t.semanticWarnings
  | .semantic, true => t.semanticErrors

theorem errors_eq (t : Statistics) :
    t.errors = t.counter .lexical true + t.counter .syntactic true + t.counter .semantic true :=
  rfl

theorem errors_eq_zero_iff {t : Statistics} : t.errors = 0 ↔ ∀ phase, t.counter phase true = 0 := by
  rw [errors_eq, Nat.add_eq_zero_iff, Nat.add_eq_zero_iff]
  constructor
  · rintro ⟨⟨hlexical, hsyntactic⟩, hsemantic⟩ (_ | _ | _)
    exacts [hlexical, hsyntactic, hsemantic]
  · exact fun h => ⟨⟨h _, h _⟩, h _⟩

@[simp]
theorem counter_empty (phase : Phase) (isError : Bool) :
    ({} : Statistics).counter phase isError = 0 := by
  cases phase <;> cases isError <;> rfl

/-- The counters stay as they are when the other numbers are set. -/
theorem counter_with (t : Statistics) (declarations procedures statements lines : Nat)
    (phase : Phase) (isError : Bool) :
    { t with declarations, procedures, statements, lines }.counter phase isError =
      t.counter phase isError := by
  cases phase <;> cases isError <;> rfl

theorem counter_merge (s t : Statistics) (phase : Phase) (isError : Bool) :
    (s.merge t).counter phase isError = s.counter phase isError + t.counter phase isError := by
  cases phase <;> cases isError <;> rfl

/-- A diagnostic is counted by one counter. -/
theorem counter_record (t : Statistics) (d : Diagnostic) (phase : Phase) (isError : Bool) :
    (t.record d).counter phase isError =
      if d.phase = phase ∧ d.isError = isError then bump (t.counter phase isError)
      else t.counter phase isError := by
  unfold record
  cases hphase : d.phase <;> cases herror : d.isError <;> cases phase <;> cases isError <;> rfl

/-- Diagnostics are counted up to the limit. -/
theorem counter_foldl_record {t : Statistics} {phase : Phase} {isError : Bool}
    (h : t.counter phase isError ≤ counterLimit) (ds : List Diagnostic) :
    (ds.foldl record t).counter phase isError =
      min (t.counter phase isError + diagnosticCount phase isError ds) counterLimit := by
  induction ds generalizing t with
  | nil => exact (Nat.min_eq_left h).symm
  | cons d ds ih =>
    have hstep : (t.record d).counter phase isError =
        min (t.counter phase isError + diagnosticCount phase isError [d]) counterLimit := by
      rw [counter_record]
      split
      · next hd => simp [bump, diagnosticCount, hd]
      · next hd =>
        have hzero : diagnosticCount phase isError [d] = 0 := by simpa [diagnosticCount] using hd
        rw [hzero, Nat.add_zero, Nat.min_eq_left h]
    have hle : (t.record d).counter phase isError ≤ counterLimit := by omega
    have hcount : diagnosticCount phase isError (d :: ds) =
        diagnosticCount phase isError [d] + diagnosticCount phase isError ds :=
      diagnosticCount_append phase isError [d] ds
    rw [List.foldl_cons, ih hle, hstep, hcount]
    omega

/-- The counts that are not of diagnostics stay as they are when diagnostics are recorded. -/
theorem foldl_record_tallied (t : Statistics) (ds : List Diagnostic) :
    (ds.foldl record t).declarations = t.declarations ∧
    (ds.foldl record t).procedures = t.procedures ∧
    (ds.foldl record t).statements = t.statements ∧ (ds.foldl record t).lines = t.lines := by
  induction ds generalizing t with
  | nil => exact ⟨rfl, rfl, rfl, rfl⟩
  | cons d ds ih =>
    have hstep : (t.record d).declarations = t.declarations ∧
        (t.record d).procedures = t.procedures ∧
        (t.record d).statements = t.statements ∧ (t.record d).lines = t.lines := by
      unfold record
      split <;> exact ⟨rfl, rfl, rfl, rfl⟩
    obtain ⟨hd, hp, hs, hl⟩ := hstep
    have := ih (t.record d)
    rwa [hd, hp, hs, hl] at this

/-- Counts with the same counters and the same other numbers are the same. -/
theorem ext_counter {s t : Statistics}
    (hcounter : ∀ phase isError, s.counter phase isError = t.counter phase isError)
    (hdeclarations : s.declarations = t.declarations) (hprocedures : s.procedures = t.procedures)
    (hstatements : s.statements = t.statements) (hlines : s.lines = t.lines) : s = t := by
  cases s
  cases t
  rw [mk.injEq]
  exact ⟨hdeclarations, hprocedures, hstatements, hcounter .lexical false, hcounter .lexical true,
    hcounter .syntactic false, hcounter .syntactic true, hcounter .semantic false,
    hcounter .semantic true, hlines⟩

/-- Each counter tells how many diagnostics of its phase and kind there are, up to the limit. -/
def Accounts (t : Statistics) (ds : List Diagnostic) : Prop :=
  ∀ phase isError, t.counter phase isError = min (diagnosticCount phase isError ds) counterLimit

namespace Accounts

variable {t : Statistics} {ds : List Diagnostic}

theorem empty : Accounts {} [] := by
  intro phase isError
  rw [counter_empty]
  rfl

theorem foldl_record (h : t.Accounts ds) (es : List Diagnostic) :
    (es.foldl Statistics.record t).Accounts (ds ++ es) := by
  intro phase isError
  have hle : t.counter phase isError ≤ counterLimit := by
    rw [h phase isError]
    exact Nat.min_le_right _ _
  rw [counter_foldl_record hle, h phase isError, diagnosticCount_append]
  omega

theorem tally (h : t.Accounts ds) (declarations procedures statements lines : Nat) :
    { t with declarations, procedures, statements, lines }.Accounts ds := by
  intro phase isError
  rw [counter_with]
  exact h phase isError

/-- No error is counted exactly where none was recorded. -/
theorem errors_eq_zero_iff (h : t.Accounts ds) : t.errors = 0 ↔ ∀ d ∈ ds, d.isError = false := by
  rw [Statistics.errors_eq_zero_iff, ← diagnosticCount_error_eq_zero_iff]
  refine forall_congr' fun phase => ?_
  rw [h phase true]
  have : 0 < counterLimit := by decide
  omega

end Accounts

end Statistics

/-! ## Calls on a queue -/

namespace Queue

/-- What can be done to a queue. -/
inductive Call where
  /-- To record a diagnostic. -/
  | push (d : Diagnostic)
  /-- To record diagnostics in their order. -/
  | append (ds : List Diagnostic)
  /-- To set the numbers that are not of diagnostics. -/
  | tally (declarations procedures statements lines : Nat)

/-- The diagnostics that a call records. -/
def Call.recorded : Call → List Diagnostic
  | push d => [d]
  | append ds => ds
  | tally .. => []

/-- The diagnostics that calls record, in order. -/
def recorded (calls : List Call) : List Diagnostic := calls.flatMap Call.recorded

/-- The queue after a call. -/
def serve (q : Queue) : Call → Queue
  | .push d => q.push d
  | .append ds => q.append ds
  | .tally declarations procedures statements lines =>
    { q with stats := { q.stats with declarations, procedures, statements, lines } }

/-- The queue after some calls. -/
def after (q : Queue) (calls : List Call) : Queue := calls.foldl serve q

theorem after_append (q : Queue) (earlier later : List Call) :
    q.after (earlier ++ later) = (q.after earlier).after later := List.foldl_append

theorem toList_serve (q : Queue) (c : Call) : (q.serve c).toList = q.toList ++ c.recorded := by
  cases c with
  | push d => exact toList_push q d
  | append ds => exact toList_append q ds
  | tally => exact (List.append_nil _).symm

/-- What was recorded stands in the queue in order. -/
theorem toList_after (q : Queue) (calls : List Call) :
    (q.after calls).toList = q.toList ++ recorded calls := by
  induction calls generalizing q with
  | nil => exact (List.append_nil _).symm
  | cons c calls ih =>
    have hlater : (q.after (c :: calls)).toList = (q.serve c).toList ++ recorded calls := ih _
    rw [hlater, toList_serve, List.append_assoc]
    rfl

/-- The counters of the queue account for what is recorded in it. -/
def Accounted (q : Queue) : Prop := q.stats.Accounts q.toList

theorem Accounted.serve {q : Queue} (h : q.Accounted) (c : Call) : (q.serve c).Accounted := by
  unfold Accounted
  rw [toList_serve]
  cases c with
  | push d => exact Statistics.Accounts.foldl_record h [d]
  | append ds =>
    change Statistics.Accounts (q.append ds).stats (q.toList ++ ds)
    rw [stats_append]
    exact Statistics.Accounts.foldl_record h ds
  | tally declarations procedures statements lines =>
    have hlist : q.toList ++ (Call.tally declarations procedures statements lines).recorded =
        q.toList := List.append_nil _
    rw [hlist]
    exact Statistics.Accounts.tally h declarations procedures statements lines

theorem Accounted.after {q : Queue} (h : q.Accounted) (calls : List Call) :
    (q.after calls).Accounted := by
  induction calls generalizing q with
  | nil => exact h
  | cons c calls ih => exact ih (h.serve c)

/-- The counters account for what was recorded, whatever else was set between. -/
theorem accounted_after (calls : List Call) : (({} : Queue).after calls).Accounted := by
  have hempty : ({} : Queue).Accounted := Statistics.Accounts.empty
  exact hempty.after calls

end Queue

/-! ## The counters of a parse -/

/-- The queue is made by calls on a new queue. -/
def Progress.Made (p : Progress) : Prop := ∃ calls, p.queue = ({} : Queue).after calls

namespace Progress.Made

variable {p : Progress}

theorem serve (h : p.Made) {q : Progress} (c : Queue.Call) (hq : q.queue = p.queue.serve c) :
    q.Made := by
  obtain ⟨calls, hcalls⟩ := h
  refine ⟨calls ++ [c], ?_⟩
  rw [hq, hcalls, Queue.after_append]
  rfl

theorem advance (h : p.Made) : p.advance.Made := by
  unfold Progress.advance
  split
  · exact h
  · next i ahead _ => exact h.serve (.append i.reports) rfl

theorem report (h : p.Made) (d : Diagnostic) : (p.report d).Made := h.serve (.push d) rfl

theorem count (h : p.Made) {f : Statistics → Statistics} (hf : Statistics.Tallies f) :
    (p.count f).Made := by
  obtain ⟨m, n, k, rfl⟩ := hf
  let t := p.queue.stats
  exact h.serve (.tally (t.declarations + m) (t.procedures + n) (t.statements + k) t.lines) rfl

theorem startOfUnit (o : LexicalOptions) (text : String) : (startOfUnit o text).Made := by
  have hempty : Progress.Made ⟨default, [], {}, #[], .new⟩ := ⟨[], rfl⟩
  unfold Modula.startOfUnit Progress.start
  split
  · exact hempty
  · next i ahead _ => exact hempty.serve (.append i.reports) rfl

end Progress.Made

/-- A run is like itself, and its queue is made by calls. -/
def Likeness.made (limit : Nat) : Likeness where
  symbol := Eq
  progress p p' := p = p' ∧ p.Made
  failed f q f'? q' := f'? = some f ∧ q = q' ∧ q.Made
  limit := limit
  normal_eq := @Symbol.normal_eq_of_eq
  text_eq_iff := @Symbol.text_eq_iff_of_eq
  lookahead h := congrArg Progress.lookahead h.1
  length_ahead h := congrArg (List.length ∘ Progress.ahead) h.1
  advance h := ⟨congrArg Progress.advance h.1, h.2.advance⟩
  report h hd := ⟨by rw [h.1, hd.eq], h.2.report _⟩
  count h hf := ⟨by rw [h.1], h.2.count hf⟩
  endless hq := ⟨rfl, hq⟩
  failed_later hf _ := nomatch hf.1

theorem ends_made (o : ParseOptions) (kind : UnitKind) {p : Progress} (hp : p.Made) :
    (Likeness.made o.maxNesting).Ends (Comparable.rel (.made o.maxNesting))
      ((compilationUnit o kind).exec p) ((compilationUnit o kind).exec p) := by
  by_cases hstart : p.lookahead.token ∈ startOf kind
  · have : AlikeOptions (.made o.maxNesting) o o :=
      ParseOptions.SameGrammar.alike ⟨rfl, rfl⟩
    have hbase (x : Nested) : Alike (.made o.maxNesting) (nested o 0 x)
        (nested o (o.maxNesting - o.maxNesting) x) := by
      rw [Nat.sub_self]
      refine ⟨fun q q' hq => ?_⟩
      rw [← hq.1]
      exact .failed (f := .failed (.nestingTooDeep o.maxNesting)) ⟨rfl, rfl, hq.2.report _⟩
    exact @ends_compilationUnit (.made o.maxNesting) o o this rfl (Nat.le_refl o.maxNesting)
      hbase _ _ _ ⟨rfl, hp⟩ hstart
  · rw [exec_compilationUnit_of_not_mem hstart]
    exact .failed ⟨rfl, rfl, hp.report _⟩

/-- The queue of a parse that has ended, with or without a tree. -/
def parseQueue (o : ParseOptions) (kind : UnitKind) (text : String) : Queue :=
  let q := (readUnit o kind (Item.ofStream (Scanned.stream o.lexical text))).2.queue
  { q with stats := { q.stats with lines := Text.lineCount text } }

theorem toList_parseQueue (o : ParseOptions) (kind : UnitKind) (text : String) :
    (parseQueue o kind text).toList = parseReports o kind text :=
  (parseReports_eq o kind text).symm

theorem stats_parseQueue (o : ParseOptions) (kind : UnitKind) (text : String) :
    (parseQueue o kind text).stats = parseCounts o kind text :=
  (parseCounts_eq o kind text).symm

/-- The queue of a parse is made by calls on a new queue. -/
theorem exists_parseQueue_eq (o : ParseOptions) (kind : UnitKind) (text : String) :
    ∃ calls, parseQueue o kind text = ({} : Queue).after calls := by
  have hend : ((compilationUnit o kind).exec (startOfUnit o.lexical text)).2.Made := by
    have h := ends_made o kind (.startOfUnit o.lexical text)
    revert h
    generalize (compilationUnit o kind).exec (startOfUnit o.lexical text) = x
    intro h
    cases h with
    | answered _ hq => exact hq.2
    | failed hf => exact hf.2.2
  obtain ⟨calls, hcalls⟩ := hend
  let q := ((compilationUnit o kind).exec (startOfUnit o.lexical text)).2.queue
  refine ⟨calls ++ [.tally q.stats.declarations q.stats.procedures q.stats.statements
    (Text.lineCount text)], ?_⟩
  rw [Queue.after_append, ← hcalls]
  rfl

/-- The counters of a parse account for what it reports. -/
theorem parseCounts_accounts (o : ParseOptions) (kind : UnitKind) (text : String) :
    (parseCounts o kind text).Accounts (parseReports o kind text) := by
  obtain ⟨calls, hcalls⟩ := exists_parseQueue_eq o kind text
  have h := Queue.accounted_after calls
  rwa [← hcalls, Queue.Accounted, toList_parseQueue, stats_parseQueue] at h

/-! ## Exact counts -/

/-- The errors of the three phases are all errors, and so are the warnings all warnings. -/
theorem diagnosticCount_sum (isError : Bool) (ds : List Diagnostic) :
    diagnosticCount .lexical isError ds + diagnosticCount .syntactic isError ds +
      diagnosticCount .semantic isError ds = ds.countP (·.isError == isError) := by
  induction ds with
  | nil => rfl
  | cons d ds ih =>
    have hone : diagnosticCount .lexical isError [d] + diagnosticCount .syntactic isError [d] +
        diagnosticCount .semantic isError [d] = [d].countP (·.isError == isError) := by
      simp only [diagnosticCount, List.countP_singleton]
      cases d.phase <;> simp
    have hcons (phase : Phase) : diagnosticCount phase isError (d :: ds) =
        diagnosticCount phase isError [d] + diagnosticCount phase isError ds :=
      diagnosticCount_append phase isError [d] ds
    have hcount : (d :: ds).countP (·.isError == isError) =
        [d].countP (·.isError == isError) + ds.countP (·.isError == isError) :=
      @List.countP_append _ _ [d] ds
    rw [hcons, hcons, hcons, hcount, ← ih, ← hone]
    omega

/-- The queue holds the diagnostics, and its counters tell exactly of them as long as there are
fewer of them than a counter can count. -/
structure Queue.Tells (q : Queue) (ds : List Diagnostic) : Prop where
  toList_eq : q.toList = ds
  hasErrors_iff : q.hasErrors = true ↔ ∃ d ∈ ds, d.severity = .error ∨ d.severity = .fatal
  counter_eq : ds.length < 2 ^ 32 → ∀ phase isError,
    q.stats.counter phase isError = diagnosticCount phase isError ds
  /-- All errors together are within the limit of a counter. -/
  errors_eq : ds.length < 2 ^ 32 → q.stats.errors < 2 ^ 32 ∧
    q.stats.errors = ds.countP fun d => d.severity = .error ∨ d.severity = .fatal
  /-- All warnings together are within the limit of a counter. -/
  warnings_eq : ds.length < 2 ^ 32 → q.stats.warnings < 2 ^ 32 ∧
    q.stats.warnings = ds.countP fun d => d.severity = .warning

/-- A counter that accounts for fewer diagnostics than it can count tells their number. -/
theorem Statistics.Accounts.counter_eq {t : Statistics} {ds : List Diagnostic} (h : t.Accounts ds)
    (hlength : ds.length < 2 ^ 32) (phase : Phase) (isError : Bool) :
    t.counter phase isError = diagnosticCount phase isError ds := by
  have hle : diagnosticCount phase isError ds ≤ ds.length := List.countP_le_length
  have hlimit : counterLimit = 2 ^ 32 - 1 := rfl
  rw [h phase isError]
  omega

/-- The counters of the three phases together tell the number of errors, or of warnings. -/
theorem Statistics.Accounts.counter_sum {t : Statistics} {ds : List Diagnostic} (h : t.Accounts ds)
    (hlength : ds.length < 2 ^ 32) (isError : Bool) :
    t.counter .lexical isError + t.counter .syntactic isError + t.counter .semantic isError =
      ds.countP (·.isError == isError) := by
  rw [h.counter_eq hlength, h.counter_eq hlength, h.counter_eq hlength, diagnosticCount_sum]

theorem Queue.Accounted.tells {q : Queue} (h : q.Accounted) : q.Tells q.toList where
  toList_eq := rfl
  hasErrors_iff := by
    have hzero := Statistics.Accounts.errors_eq_zero_iff h
    rw [hasErrors, decide_eq_true_iff, Nat.pos_iff_ne_zero, Ne, hzero]
    simp only [not_forall, Bool.not_eq_false, Diagnostic.isError_iff, exists_prop]
  counter_eq := Statistics.Accounts.counter_eq h
  errors_eq := by
    intro hlength
    have hsum : q.stats.errors = q.toList.countP (·.isError == true) :=
      Statistics.Accounts.counter_sum h hlength true
    refine ⟨hsum ▸ Nat.lt_of_le_of_lt List.countP_le_length hlength, hsum.trans ?_⟩
    refine List.countP_congr fun d _ => ?_
    rw [beq_iff_eq, decide_eq_true_iff, Diagnostic.isError_iff]
  warnings_eq := by
    intro hlength
    have hsum : q.stats.warnings = q.toList.countP (·.isError == false) :=
      Statistics.Accounts.counter_sum h hlength false
    refine ⟨hsum ▸ Nat.lt_of_le_of_lt List.countP_le_length hlength, hsum.trans ?_⟩
    refine List.countP_congr fun d _ => ?_
    rw [beq_iff_eq, decide_eq_true_iff, Diagnostic.isError_eq_false_iff]

/-- Counts never drift from the diagnostics that are recorded. Whatever is recorded by calls on a
new queue, and whatever the other numbers are set to between, the queue holds it in order and counts
it exactly. The queue of every parse is made by such calls; it holds what the parse reports, and
there are errors in the answer of the parse exactly if one is reported. -/
theorem counters_tell (o : ParseOptions) (kind : UnitKind) (text : String) :
    (∀ calls, (({} : Queue).after calls).Tells (Queue.recorded calls)) ∧
    (∃ calls, parseQueue o kind text = ({} : Queue).after calls) ∧
    (parseQueue o kind text).Tells (parseReports o kind text) ∧
    (parseQueue o kind text).stats = parseCounts o kind text ∧
    ∀ out, parse o kind text = .ok out →
      (out.hasErrors = true ↔ ∃ d ∈ out.reports, d.severity = .error ∨ d.severity = .fatal) := by
  have hcalls (calls : List Queue.Call) :
      (({} : Queue).after calls).Tells (Queue.recorded calls) := by
    have htells := (Queue.accounted_after calls).tells
    rwa [Queue.toList_after] at htells
  have hparse : (parseQueue o kind text).Tells (parseReports o kind text) := by
    obtain ⟨calls, hmade⟩ := exists_parseQueue_eq o kind text
    have haccounted := Queue.accounted_after calls
    rw [← hmade] at haccounted
    have htells := haccounted.tells
    rwa [toList_parseQueue] at htells
  refine ⟨hcalls, exists_parseQueue_eq o kind text, hparse, stats_parseQueue o kind text, ?_⟩
  intro out hout
  have hreports : parseReports o kind text = out.reports := by rw [parseReports, hout]
  have hstats : (parseQueue o kind text).stats = out.stats := by
    rw [stats_parseQueue, parseCounts, hout]
  rw [← hreports, ← hparse.hasErrors_iff, Queue.hasErrors, hstats, ParseOutput.hasErrors]

end Modula
