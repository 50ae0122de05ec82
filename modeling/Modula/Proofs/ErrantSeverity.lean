import Modula.Proofs.AccurateRules
import Modula.Proofs.Indifference

/-!
# The severity of errant semicolons

How grave a semicolon in front of a closing symbol is can be chosen. Two readings of a source with
different choices go the same way, symbol by symbol, and report the same; only the reports of errant
semicolons are of the severity that was chosen, and are counted as errors or as warnings by it.

A counter of diagnostics stops at a limit, so what is said of the counters says first how they come
from the reports, and then what this means below the limit.
-/

namespace Modula

open Modula.Parser Modula.Grammar

/-- The options with another severity of errant semicolons. -/
def ParseOptions.withErrant (o : ParseOptions) (s : Severity) : ParseOptions :=
  { o with errantSemicolon := s }

/-! ## Counters of reports -/

/-- The number of syntax errors among the reports, or of syntax warnings. -/
def syntaxCount (isError : Bool) (ds : List Diagnostic) : Nat :=
  ds.countP fun d => d.phase = .syntactic && d.isError == isError

/-- The number of errant semicolons among the reports. -/
def errantCount (ds : List Diagnostic) : Nat := ds.countP (·.code = .errantSemicolon)

/-- The counters show how many syntax warnings and errors have been reported, up to their limit. -/
structure Statistics.Shows (t : Statistics) (ds : List Diagnostic) : Prop where
  syntaxWarnings : t.syntaxWarnings = min (syntaxCount false ds) counterLimit
  syntaxErrors : t.syntaxErrors = min (syntaxCount true ds) counterLimit

theorem syntaxCount_append (isError : Bool) (ds es : List Diagnostic) :
    syntaxCount isError (ds ++ es) = syntaxCount isError ds + syntaxCount isError es :=
  List.countP_append

theorem syntaxCount_cons (isError : Bool) (d : Diagnostic) (ds : List Diagnostic) :
    syntaxCount isError (d :: ds) =
      syntaxCount isError ds + if d.phase = .syntactic ∧ d.isError = isError then 1 else 0 := by
  unfold syntaxCount
  rw [List.countP_cons]
  simp only [Bool.and_eq_true, decide_eq_true_eq, beq_iff_eq]

theorem syntaxCount_cons_errant (isError : Bool) {d : Diagnostic} (hd : d.code = .errantSemicolon)
    (ds : List Diagnostic) :
    syntaxCount isError (d :: ds) =
      syntaxCount isError ds + if d.severity.isError = isError then 1 else 0 := by
  have hphase : d.phase = .syntactic := congrArg Code.phase hd
  rw [syntaxCount_cons]
  simp only [hphase, true_and]
  rfl

theorem errantCount_cons (d : Diagnostic) (ds : List Diagnostic) :
    errantCount (d :: ds) = errantCount ds + if d.code = .errantSemicolon then 1 else 0 := by
  unfold errantCount
  rw [List.countP_cons]
  simp only [decide_eq_true_eq]

theorem bump_min (n : Nat) :
    Statistics.bump (min n Statistics.counterLimit) = min (n + 1) Statistics.counterLimit := by
  unfold Statistics.bump
  omega

namespace Statistics.Shows

variable {t : Statistics} {ds : List Diagnostic}

theorem empty : Shows {} [] := ⟨rfl, rfl⟩

theorem record (h : t.Shows ds) (d : Diagnostic) : (t.record d).Shows (ds ++ [d]) := by
  obtain ⟨hw, he⟩ := h
  unfold Statistics.record
  constructor
  all_goals
    rw [syntaxCount_append]
    split
    all_goals
      next hphase herror => simp [syntaxCount, hphase, herror, hw, he, bump_min]

theorem foldl_record (h : t.Shows ds) (es : List Diagnostic) :
    (es.foldl Statistics.record t).Shows (ds ++ es) := by
  induction es generalizing t ds with
  | nil => rwa [List.append_nil]
  | cons e es ih =>
    rw [List.append_cons]
    exact ih (h.record e)

theorem tally (h : t.Shows ds) {f : Statistics → Statistics} (hf : Tallies f) : (f t).Shows ds := by
  obtain ⟨m, n, k, rfl⟩ := hf
  exact ⟨h.syntaxWarnings, h.syntaxErrors⟩

theorem with_lines (h : t.Shows ds) (n : Nat) : { t with lines := n }.Shows ds :=
  ⟨h.syntaxWarnings, h.syntaxErrors⟩

end Statistics.Shows

/-! ## Two runs with different severities -/

/-- The same report, but an errant semicolon may be of another severity. -/
def Diagnostic.SameButErrant (d d' : Diagnostic) : Prop :=
  d = d' ∨ d.code = .errantSemicolon ∧ d' = { d with severity := d'.severity }

/-- All counts are the same except those of the faults of the grammar. -/
def Statistics.SameButSyntax (t t' : Statistics) : Prop :=
  t' = { t with syntaxWarnings := t'.syntaxWarnings, syntaxErrors := t'.syntaxErrors }

namespace Statistics.SameButSyntax

variable {t t' : Statistics}

theorem record (h : t.SameButSyntax t') {d d' : Diagnostic} (hd : d.SameButErrant d') :
    (t.record d).SameButSyntax (t'.record d') := by
  unfold SameButSyntax at h
  rw [h]
  rcases hd with rfl | ⟨hcode, hd'⟩
  · unfold Statistics.record
    split <;> rfl
  · have hphase : d.phase = .syntactic := by rw [Diagnostic.phase, hcode]; rfl
    have hphase' : d'.phase = .syntactic := by rw [hd']; exact hphase
    unfold Statistics.record
    rw [hphase, hphase']
    cases d.isError <;> cases d'.isError <;> rfl

theorem tally (h : t.SameButSyntax t') {f : Statistics → Statistics} (hf : Tallies f) :
    (f t).SameButSyntax (f t') := by
  obtain ⟨m, n, k, rfl⟩ := hf
  unfold SameButSyntax at h
  rw [h]
  rfl

theorem with_lines (h : t.SameButSyntax t') (n : Nat) :
    { t with lines := n }.SameButSyntax { t' with lines := n } := by
  unfold SameButSyntax at h
  rw [h]
  rfl

end Statistics.SameButSyntax

/-- Two queues with the same reports but for the severity of errant semicolons, each with counters
that show its own reports. -/
structure Queue.SameButErrant (q q' : Queue) : Prop where
  reports : List.Forall₂ Diagnostic.SameButErrant q.toList q'.toList
  counts : q.stats.SameButSyntax q'.stats
  shows_left : q.stats.Shows q.toList
  shows_right : q'.stats.Shows q'.toList

namespace Queue.SameButErrant

variable {q q' : Queue}

theorem empty : SameButErrant {} {} := ⟨.nil, rfl, .empty, .empty⟩

theorem push (h : q.SameButErrant q') {d d' : Diagnostic} (hd : d.SameButErrant d') :
    (q.push d).SameButErrant (q'.push d') := by
  constructor
  · rw [toList_push, toList_push]
    exact List.rel_append h.reports (.cons hd .nil)
  · exact h.counts.record hd
  · rw [toList_push]
    exact h.shows_left.record d
  · rw [toList_push]
    exact h.shows_right.record d'

theorem append (h : q.SameButErrant q') (ds : List Diagnostic) :
    (q.append ds).SameButErrant (q'.append ds) := by
  induction ds generalizing q q' with
  | nil => exact h
  | cons d ds ih => exact ih (h.push (.inl rfl))

end Queue.SameButErrant

/-- Points of two runs where the same has been read. -/
structure Progress.SameButErrant (p p' : Progress) : Prop where
  lookahead : p.lookahead = p'.lookahead
  ahead : p.ahead = p'.ahead
  trivia : p.trivia = p'.trivia
  queue : p.queue.SameButErrant p'.queue

namespace Progress.SameButErrant

variable {p p' : Progress}

theorem view (h : p.SameButErrant p') (i : Item) (ahead : List Item) :
    (p.view i ahead).SameButErrant (p'.view i ahead) :=
  ⟨rfl, rfl, congrArg (i.trivia.foldl Array.push) h.trivia, h.queue.append i.reports⟩

theorem advance (h : p.SameButErrant p') : p.advance.SameButErrant p'.advance := by
  unfold Progress.advance
  rw [h.ahead]
  split
  · exact h
  · exact h.view _ _

theorem report (h : p.SameButErrant p') {d d' : Diagnostic} (hd : d.SameButErrant d') :
    (p.report d).SameButErrant (p'.report d') :=
  ⟨h.lookahead, h.ahead, h.trivia, h.queue.push hd⟩

theorem count (h : p.SameButErrant p') {f : Statistics → Statistics} (hf : Statistics.Tallies f) :
    (p.count f).SameButErrant (p'.count f) :=
  ⟨h.lookahead, h.ahead, h.trivia, h.queue.reports, h.queue.counts.tally hf,
    h.queue.shows_left.tally hf, h.queue.shows_right.tally hf⟩

theorem startOfUnit (o : LexicalOptions) (text : String) :
    (startOfUnit o text).SameButErrant (startOfUnit o text) := by
  have hblank : Progress.blank.SameButErrant .blank := ⟨rfl, rfl, rfl, .empty⟩
  unfold Modula.startOfUnit Progress.start
  split
  · exact hblank
  · exact hblank.view _ _

end Progress.SameButErrant

/-- Runs are alike if they read the same, report the same but for the severity of errant semicolons,
and fail together. -/
def Likeness.sameButErrant (limit : Nat) : Likeness where
  symbol := Eq
  progress := Progress.SameButErrant
  failed f q f'? q' := f'? = some f ∧ q.SameButErrant q'
  limit := limit
  normal_eq := @Symbol.normal_eq_of_eq
  text_eq_iff := @Symbol.text_eq_iff_of_eq
  lookahead h := h.lookahead
  length_ahead h := congrArg List.length h.ahead
  advance := Progress.SameButErrant.advance
  report hp hd := hp.report (.inl hd.eq)
  count h hf := h.count hf
  endless hq := ⟨rfl, hq⟩
  failed_later hf _ := nomatch hf.1

/-! ## Two parses with different severities -/

/-- The same report, but an errant semicolon is of one severity here and of the other there. -/
def Diagnostic.Regraded (s s' : Severity) (d d' : Diagnostic) : Prop :=
  if d.code = .errantSemicolon then d.severity = s ∧ d' = { d with severity := s' } else d' = d

/-- Two parses come to the same end: to one tree, with one table and the same trivia, or to one
failure. -/
inductive SameEnd : Except ParseFailure ParseOutput → Except ParseFailure ParseOutput → Prop where
  | withTree {out out' : ParseOutput} (tree : out'.tree = out.tree) (table : out'.table = out.table)
    (trivia : out'.trivia = out.trivia) : SameEnd (.ok out) (.ok out')
  | failed {e e' : ParseFailure} (failure : e'.failure = e.failure) : SameEnd (.error e) (.error e')

/-- The counts of a parse, with a tree or without. -/
def parseCounts (o : ParseOptions) (kind : UnitKind) (text : String) : Statistics :=
  match parse o kind text with
  | .ok out => out.stats
  | .error e => e.stats

/-- What another severity does to the numbers of warnings and errors, when so many faults are of the
one severity in the first pair and of the other one in the second pair. -/
structure Shift (s s' : Severity) (n warnings errors warnings' errors' : Nat) : Prop where
  sum : warnings' + errors' = warnings + errors
  same : s'.isError = s.isError → warnings' = warnings ∧ errors' = errors
  relaxed : s.isError = true → s'.isError = false → warnings' = warnings + n ∧ errors = errors' + n
  hardened : s.isError = false → s'.isError = true → warnings = warnings' + n ∧ errors' = errors + n

namespace Shift

variable {s s' : Severity} {n w e w' e' : Nat}

theorem zero : Shift s s' 0 0 0 0 0 :=
  ⟨rfl, fun _ => ⟨rfl, rfl⟩, fun _ _ => ⟨rfl, rfl⟩, fun _ _ => ⟨rfl, rfl⟩⟩

/-- Faults that are counted in both pairs alike. -/
theorem other (h : Shift s s' n w e w' e') (x y : Nat) :
    Shift s s' n (w + x) (e + y) (w' + x) (e' + y) := by
  obtain ⟨hsum, hsame, hrelaxed, hhardened⟩ := h
  constructor <;> grind

/-- A fault that is counted by the severities. -/
theorem errant (h : Shift s s' n w e w' e') :
    Shift s s' (n + 1) (w + if s.isError = false then 1 else 0)
      (e + if s.isError = true then 1 else 0) (w' + if s'.isError = false then 1 else 0)
      (e' + if s'.isError = true then 1 else 0) := by
  obtain ⟨hsum, hsame, hrelaxed, hhardened⟩ := h
  constructor <;> grind

end Shift

section

variable {o : ParseOptions} {kind : UnitKind} {text : String} {s s' : Severity}

theorem alikeOptions_withErrant (o : ParseOptions) (s s' : Severity) :
    AlikeOptions (.sameButErrant o.maxNesting) (o.withErrant s) (o.withErrant s') := by
  refine ⟨rfl, ?_⟩
  rintro semicolon _ rfl
  refine .of_exec fun p p' hp => ⟨_, _, _, _, rfl, rfl, rfl, hp.report (.inr ⟨rfl, ?_⟩)⟩
  rw [hp.lookahead]

/-- Two runs for which there are no levels left give up in one place. -/
theorem alike_nested_withErrant (o : ParseOptions) (s s' : Severity) (x : Nested) :
    Alike (.sameButErrant o.maxNesting) (nested (o.withErrant s) 0 x)
      (nested (o.withErrant s') 0 x) := by
  refine ⟨fun p p' hp => .failed (f := .failed (.nestingTooDeep o.maxNesting)) ⟨rfl, ?_⟩⟩
  exact hp.report (.inl (congrArg (faultAt .nestingTooDeep) hp.lookahead))

theorem ends_withErrant (o : ParseOptions) (kind : UnitKind) (s s' : Severity) {p p' : Progress}
    (hp : p.SameButErrant p') :
    (Likeness.sameButErrant o.maxNesting).Ends (Comparable.rel (.sameButErrant o.maxNesting))
      ((compilationUnit (o.withErrant s) kind).exec p)
      ((compilationUnit (o.withErrant s') kind).exec p') := by
  by_cases hstart : p.lookahead.token ∈ startOf kind
  · have := alikeOptions_withErrant o s s'
    have hbase (x : Nested) : Alike (.sameButErrant o.maxNesting) (nested (o.withErrant s) 0 x)
        (nested (o.withErrant s') (o.maxNesting - o.maxNesting) x) := by
      rw [Nat.sub_self]
      exact alike_nested_withErrant o s s' x
    exact @ends_compilationUnit (.sameButErrant o.maxNesting) (o.withErrant s) (o.withErrant s') this
      rfl (Nat.le_refl o.maxNesting) hbase _ _ _ hp hstart
  · rw [exec_compilationUnit_of_not_mem hstart,
      exec_compilationUnit_of_not_mem (hp.lookahead ▸ hstart), hp.lookahead]
    exact .failed ⟨rfl, hp.report (.inl rfl)⟩

/-- Readings that end alike are parses with one end, reports that differ in severity only, and
counters that show them. -/
theorem outcomes_of_ends {n : Nat} {x x' : Except Stop Node × Progress} (o : LexicalOptions)
    (text : String)
    (h : (Likeness.sameButErrant n).Ends (Comparable.rel (Likeness.sameButErrant n)) x x') :
    SameEnd (outcomeOf o text x) (outcomeOf o text x') ∧ x.2.queue.SameButErrant x'.2.queue := by
  cases h with
  | answered htree hq =>
    refine ⟨.withTree (Tree.Corresponds.eq htree).symm rfl ?_, hq.queue⟩
    exact congrArg Array.toList hq.trivia.symm
  | @failed f q q' y hf =>
    obtain ⟨hy, hq⟩ := hf
    cases y with
    | ok => cases hy
    | error f' =>
      cases hy
      exact ⟨.failed rfl, hq.queue⟩

theorem parseCounts_eq (o : ParseOptions) (kind : UnitKind) (text : String) :
    parseCounts o kind text =
      { ((compilationUnit o kind).exec (startOfUnit o.lexical text)).2.queue.stats with
        lines := Text.lineCount text } := by
  unfold parseCounts
  rw [parse_eq_outcomeOf]
  rcases (compilationUnit o kind).exec (startOfUnit o.lexical text) with ⟨f | tree, q⟩ <;> rfl

/-- Every errant semicolon is reported with the severity that was chosen. -/
theorem severity_of_errant (o : ParseOptions) (kind : UnitKind) (text : String) :
    ∀ d ∈ parseReports o kind text, d.code = .errantSemicolon → d.severity = o.errantSemicolon := by
  refine parseReports_induction o kind text ?_ ?_ ?_ ?_ ?_
  · intro d hlexical hcode
    rw [Diagnostic.phase, hcode] at hlexical
    cases hlexical
  · intro p d hd
    cases hd with
    | missing c h => rcases h with rfl | rfl <;> exact nofun
    | surprise | isOpaque | closing => exact nofun
  · exact fun p _ _ => rfl
  · exact fun s => nofun
  · exact fun s _ => nofun

/-- Reports that are the same but for the severity of errant semicolons are regraded, if the errant
semicolons on either side are of one severity. -/
theorem regraded_of_sameButErrant {ds ds' : List Diagnostic}
    (h : List.Forall₂ Diagnostic.SameButErrant ds ds')
    (hs : ∀ d ∈ ds, d.code = .errantSemicolon → d.severity = s)
    (hs' : ∀ d ∈ ds', d.code = .errantSemicolon → d.severity = s') :
    List.Forall₂ (Diagnostic.Regraded s s') ds ds' := by
  induction h with
  | nil => exact .nil
  | @cons d d' ds ds' hd _ ih =>
    obtain ⟨hd₁, hds₁⟩ := List.forall_mem_cons.1 hs
    obtain ⟨hd₂, hds₂⟩ := List.forall_mem_cons.1 hs'
    refine .cons ?_ (ih hds₁ hds₂)
    unfold Diagnostic.Regraded
    have hcode : d'.code = d.code := by
      rcases hd with rfl | ⟨-, hd'⟩
      · rfl
      · rw [hd']
    have hd' : d' = { d with severity := d'.severity } := by
      rcases hd with rfl | ⟨-, hd'⟩
      · rfl
      · exact hd'
    split
    · next herrant =>
      rw [hd₂ (hcode.trans herrant)] at hd'
      exact ⟨hd₁ herrant, hd'⟩
    · next hother => exact (hd.resolve_right fun h => hother h.1).symm

/-- What regrading does to the numbers of warnings and errors. -/
theorem shift_of_regraded {ds ds' : List Diagnostic}
    (h : List.Forall₂ (Diagnostic.Regraded s s') ds ds') :
    Shift s s' (errantCount ds) (syntaxCount false ds) (syntaxCount true ds)
      (syntaxCount false ds') (syntaxCount true ds') := by
  induction h with
  | nil => exact .zero
  | @cons d d' ds ds' hd _ ih =>
    unfold Diagnostic.Regraded at hd
    split at hd
    · next hcode =>
      obtain ⟨rfl, rfl⟩ := hd
      rw [errantCount_cons, if_pos hcode]
      simp only [syntaxCount_cons_errant, hcode]
      exact ih.errant
    · next hcode =>
      rw [hd, errantCount_cons, if_neg hcode]
      simp only [syntaxCount_cons]
      exact ih.other _ _

/-- Below their limit the counters are the numbers of warnings and errors. -/
theorem Statistics.Shows.eq_of_le {t : Statistics} {ds : List Diagnostic} (h : t.Shows ds)
    (hle : syntaxCount false ds + syntaxCount true ds ≤ counterLimit) :
    t.syntaxWarnings = syntaxCount false ds ∧ t.syntaxErrors = syntaxCount true ds := by
  rw [h.syntaxWarnings, h.syntaxErrors]
  omega

/-- Every fault of the grammar is a warning or an error. -/
theorem length_syntaxReports (ds : List Diagnostic) :
    (syntaxReports ds).length = syntaxCount false ds + syntaxCount true ds := by
  induction ds with
  | nil => rfl
  | cons d ds ih =>
    have hcons : (syntaxReports (d :: ds)).length =
        (syntaxReports ds).length + if d.phase = .syntactic then 1 else 0 := by
      unfold syntaxReports
      rw [List.filter_cons]
      by_cases hphase : d.phase = .syntactic <;> simp [hphase]
    rw [hcons, ih, syntaxCount_cons, syntaxCount_cons]
    cases d.isError <;> simp [Nat.add_right_comm, Nat.add_assoc]

end

/-- The severity of errant semicolons changes nothing but that severity. Parses with two choices
come to the same end, and report the same, one by one, but for the severity of errant semicolons.
Their counts are the same, except that the errant semicolons are counted by their severity: as many
faults of the grammar are counted altogether, and where one choice is a warning and the other is
not, the errant semicolons move from one count to the other. The counters show these counts as long
as they do not reach their limit. -/
theorem parse_withErrant (o : ParseOptions) (s s' : Severity) (kind : UnitKind) (text : String) :
    SameEnd (parse (o.withErrant s) kind text) (parse (o.withErrant s') kind text) ∧
    List.Forall₂ (Diagnostic.Regraded s s') (parseReports (o.withErrant s) kind text)
      (parseReports (o.withErrant s') kind text) ∧
    (parseCounts (o.withErrant s) kind text).SameButSyntax
      (parseCounts (o.withErrant s') kind text) ∧
    (∀ v, (parseCounts (o.withErrant v) kind text).Shows
      (parseReports (o.withErrant v) kind text)) ∧
    Shift s s' (errantCount (parseReports (o.withErrant s) kind text))
      (syntaxCount false (parseReports (o.withErrant s) kind text))
      (syntaxCount true (parseReports (o.withErrant s) kind text))
      (syntaxCount false (parseReports (o.withErrant s') kind text))
      (syntaxCount true (parseReports (o.withErrant s') kind text)) ∧
    ((syntaxReports (parseReports (o.withErrant s) kind text)).length ≤ Statistics.counterLimit →
      Shift s s' (errantCount (parseReports (o.withErrant s) kind text))
        (parseCounts (o.withErrant s) kind text).syntaxWarnings
        (parseCounts (o.withErrant s) kind text).syntaxErrors
        (parseCounts (o.withErrant s') kind text).syntaxWarnings
        (parseCounts (o.withErrant s') kind text).syntaxErrors) := by
  have houtcome (v v' : Severity) := outcomes_of_ends o.lexical text
    (ends_withErrant o kind v v' (.startOfUnit o.lexical text))
  have hshows (v : Severity) : (parseCounts (o.withErrant v) kind text).Shows
      (parseReports (o.withErrant v) kind text) := by
    rw [parseCounts_eq, parseReports_eq]
    exact (houtcome v v).2.shows_left.with_lines _
  have hregraded : List.Forall₂ (Diagnostic.Regraded s s')
      (parseReports (o.withErrant s) kind text) (parseReports (o.withErrant s') kind text) := by
    refine regraded_of_sameButErrant ?_ (severity_of_errant (o.withErrant s) kind text)
      (severity_of_errant (o.withErrant s') kind text)
    rw [parseReports_eq, parseReports_eq]
    exact (houtcome s s').2.reports
  have hshift := shift_of_regraded hregraded
  refine ⟨?_, hregraded, ?_, hshows, hshift, fun hle => ?_⟩
  · rw [parse_eq_outcomeOf, parse_eq_outcomeOf]
    exact (houtcome s s').1
  · rw [parseCounts_eq, parseCounts_eq]
    exact (houtcome s s').2.counts.with_lines _
  · rw [length_syntaxReports] at hle
    obtain ⟨hw, he⟩ := (hshows s).eq_of_le hle
    obtain ⟨hw', he'⟩ := (hshows s').eq_of_le (hshift.sum ▸ hle)
    rw [hw, he, hw', he']
    exact hshift

/-- A semicolon behind the last statement, once as an error and once as a warning. -/
theorem parse_withErrant_return :
    (syntaxReports (parseReports (.withErrant {} .error) .any
      "MODULE m; BEGIN RETURN; END m.")).length ≤ Statistics.counterLimit ∧
    Shift .error .warning 1
      (parseCounts (.withErrant {} .error) .any "MODULE m; BEGIN RETURN; END m.").syntaxWarnings
      (parseCounts (.withErrant {} .error) .any "MODULE m; BEGIN RETURN; END m.").syntaxErrors
      (parseCounts (.withErrant {} .warning) .any "MODULE m; BEGIN RETURN; END m.").syntaxWarnings
      (parseCounts (.withErrant {} .warning) .any
        "MODULE m; BEGIN RETURN; END m.").syntaxErrors := by
  have hle : (syntaxReports (parseReports (.withErrant {} .error) .any
      "MODULE m; BEGIN RETURN; END m.")).length ≤ Statistics.counterLimit := by
    decide +kernel
  have hone : errantCount (parseReports (.withErrant {} .error) .any
      "MODULE m; BEGIN RETURN; END m.") = 1 := by
    decide +kernel
  have h := parse_withErrant {} .error .warning .any "MODULE m; BEGIN RETURN; END m."
  exact ⟨hle, hone ▸ h.2.2.2.2.2 hle⟩

end Modula
