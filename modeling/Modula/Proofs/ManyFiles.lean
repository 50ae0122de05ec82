import Mathlib.Algebra.GroupWithZero.Nat
import Modula.Proofs.Counters
import Modula.Run

/-!
# Runs over many files

What is written about a file, and what it adds to the totals, does not depend on the files that
were dealt with before. So the report of a run is made up of the reports of runs over each file
alone, except for the line that closes the log, which is written once and from the totals.

The counters of diagnostics stop at a limit. Where symbols are listed they are kept up for all
files together, so this holds as long as the sums of the counters stay within the limit.
-/

namespace Modula

/-! ## Totals -/

namespace Statistics

theorem empty_merge (s : Statistics) : merge {} s = s := by
  simp [merge]

theorem merge_empty (s : Statistics) : s.merge {} = s := rfl

theorem merge_assoc (s t u : Statistics) : (s.merge t).merge u = s.merge (t.merge u) := by
  simp [merge, Nat.add_assoc]

theorem errors_merge (s t : Statistics) : (s.merge t).errors = s.errors + t.errors := by
  unfold errors merge
  dsimp only
  omega

/-- Recording diagnostics on top of other counts adds up, unless a counter reaches its limit. -/
theorem foldl_record_eq_merge {t : Statistics} {ds : List Diagnostic}
    (h : ∀ phase isError, t.counter phase isError +
      (ds.foldl record {}).counter phase isError ≤ counterLimit) :
    ds.foldl record t = t.merge (ds.foldl record {}) := by
  obtain ⟨hdeclarations, hprocedures, hstatements, hlines⟩ := foldl_record_tallied t ds
  obtain ⟨hdeclarations', hprocedures', hstatements', hlines'⟩ := foldl_record_tallied {} ds
  refine ext_counter (fun phase isError => ?_) ?_ ?_ ?_ ?_
  · have hsum := h phase isError
    have hle : t.counter phase isError ≤ counterLimit := by omega
    have hempty : ({} : Statistics).counter phase isError ≤ counterLimit := by
      rw [counter_empty]
      exact Nat.zero_le _
    rw [counter_merge, counter_foldl_record hle]
    rw [counter_foldl_record hempty, counter_empty] at hsum ⊢
    omega
  · rw [merge, hdeclarations, hdeclarations', Nat.add_zero]
  · rw [merge, hprocedures, hprocedures', Nat.add_zero]
  · rw [merge, hstatements, hstatements', Nat.add_zero]
  · rw [merge, hlines, hlines', Nat.add_zero]

/-- The sum of counts. -/
def sum (ss : List Statistics) : Statistics := ss.foldr merge {}

end Statistics

/-! ## Reports behind each other -/

namespace Report

/-- One report behind another. -/
def append (r s : Report) : Report where
  output := r.output ++ s.output
  log := r.log ++ s.log
  stats := r.stats.merge s.stats
  failures := r.failures + s.failures

instance : Append Report := ⟨append⟩

/-- Reports behind each other. -/
def join (rs : List Report) : Report := rs.foldr append {}

variable (r s t : Report) (rs : List Report)

theorem append_def : r ++ s =
    ⟨r.output ++ s.output, r.log ++ s.log, r.stats.merge s.stats, r.failures + s.failures⟩ :=
  rfl

theorem append_assoc : r ++ s ++ t = r ++ (s ++ t) := by
  simp only [append_def, String.append_assoc, Statistics.merge_assoc, Nat.add_assoc]

theorem append_empty : r ++ ({} : Report) = r := by
  simp only [append_def, String.append_empty, Statistics.merge_empty, Nat.add_zero]

theorem empty_append : ({} : Report) ++ r = r := by
  simp only [append_def, String.empty_append, Statistics.empty_merge, Nat.zero_add]

theorem join_cons : join (r :: rs) = r ++ join rs := rfl

theorem output_join : (join rs).output = String.join (rs.map output) := by
  induction rs with
  | nil => rfl
  | cons r rs ih =>
    rw [List.map_cons, String.join_cons]
    exact congrArg (r.output ++ ·) ih

theorem log_join : (join rs).log = String.join (rs.map log) := by
  induction rs with
  | nil => rfl
  | cons r rs ih =>
    rw [List.map_cons, String.join_cons]
    exact congrArg (r.log ++ ·) ih

theorem stats_join : (join rs).stats = Statistics.sum (rs.map stats) := by
  induction rs with
  | nil => rfl
  | cons r rs ih => exact congrArg r.stats.merge ih

theorem failures_join : (join rs).failures = (rs.map failures).sum := by
  induction rs with
  | nil => rfl
  | cons r rs ih => exact congrArg (r.failures + ·) ih

variable {r s rs}

theorem succeeded_iff : r.succeeded = true ↔ r.failures = 0 ∧ r.stats.errors = 0 := by
  simp [succeeded]

theorem succeeded_append : (r ++ s).succeeded = true ↔ r.succeeded = true ∧ s.succeeded = true := by
  have herrors : (r ++ s).stats.errors = r.stats.errors + s.stats.errors :=
    Statistics.errors_merge _ _
  have hfailures : (r ++ s).failures = r.failures + s.failures := rfl
  rw [succeeded_iff, succeeded_iff, succeeded_iff, herrors, hfailures]
  omega

/-- Reports behind each other succeed if each of them does. -/
theorem succeeded_join : (join rs).succeeded = true ↔ ∀ r ∈ rs, r.succeeded = true := by
  induction rs with
  | nil => exact iff_of_true rfl nofun
  | cons r rs ih => rw [join_cons, succeeded_append, ih, List.forall_mem_cons]

end Report

namespace CommandLine

variable (c : CommandLine) (isTerminal : Bool) (read : FileReader)

/-! ## One file -/

/-- The report with one more file. -/
def turn (r : Report) (path : String) : Report :=
  match c.mode with
  | .tokens => c.listFile isTerminal read r path
  | .check | .ast => c.reportFile isTerminal read r (path, c.parseFile read path)

theorem pass_eq_foldl : c.pass isTerminal read = c.files.foldl (c.turn isTerminal read) {} := by
  unfold pass turn parseFiles
  cases c.mode with
  | tokens => rfl
  | check | ast => exact List.foldl_map

variable {c isTerminal read}

theorem listFile_eq_append {r : Report} {path : String}
    (h : ∀ phase isError, r.stats.counter phase isError +
      (c.listFile isTerminal read {} path).stats.counter phase isError ≤ Statistics.counterLimit) :
    c.listFile isTerminal read r path = r ++ c.listFile isTerminal read {} path := by
  unfold listFile at h ⊢
  revert h
  cases Source.ofPath read path with
  | error e =>
    intro _
    simp only [Report.append_def, Report.fail, String.append_empty, String.empty_append,
      Statistics.merge_empty, Nat.zero_add]
  | ok source =>
    intro h
    simp only [Report.append_def, String.empty_append, Nat.add_zero]
    rw [Statistics.foldl_record_eq_merge h]

theorem reportFile_eq_append (r : Report) (file : String × FileResult) :
    c.reportFile isTerminal read r file = r ++ c.reportFile isTerminal read {} file := by
  obtain ⟨path, result⟩ := file
  cases result <;>
    simp only [reportFile, Report.append_def, Report.fail, FileResult.stats, FileResult.reports,
      String.append_assoc, String.empty_append, String.append_empty, Statistics.empty_merge,
      Nat.zero_add, Nat.add_zero]

/-- What is written about a file does not depend on what was written before, and what it adds to the
counters does not as long as they are within their limit. -/
theorem turn_eq_append {r : Report} {path : String}
    (h : ∀ phase isError, r.stats.counter phase isError +
      (c.turn isTerminal read {} path).stats.counter phase isError ≤ Statistics.counterLimit) :
    c.turn isTerminal read r path = r ++ c.turn isTerminal read {} path := by
  unfold turn at h ⊢
  revert h
  cases c.mode with
  | tokens => exact listFile_eq_append
  | check | ast => exact fun _ => reportFile_eq_append r _

/-- The file can be read, has a tree if one is asked for, and nothing graver than a warning is
reported of it. -/
def Accepts (c : CommandLine) (read : FileReader) (path : String) : Prop :=
  ∃ source, Source.ofPath read path = .ok source ∧
    match c.mode with
    | .tokens => ∀ d ∈ (tokenize c.options.lexical source.text).reports, d.severity = .warning
    | .check | .ast =>
      (∃ out, parse c.options (unitKind path c.kind) source.text = .ok out) ∧
      ∀ d ∈ parseReports c.options (unitKind path c.kind) source.text, d.severity = .warning

theorem succeeded_listFile {path : String} :
    (c.listFile isTerminal read {} path).succeeded = true ↔
      ∃ source, Source.ofPath read path = .ok source ∧
        ∀ d ∈ (tokenize c.options.lexical source.text).reports, d.severity = .warning := by
  unfold listFile
  cases Source.ofPath read path with
  | error e => simp [Report.succeeded, Report.fail]
  | ok source =>
    have haccounts := Statistics.Accounts.foldl_record .empty
      (tokenize c.options.lexical source.text).reports
    rw [Report.succeeded_iff, haccounts.errors_eq_zero_iff]
    simp [Diagnostic.isError_eq_false_iff]

theorem succeeded_reportFile {path : String} :
    (c.reportFile isTerminal read {} (path, c.parseFile read path)).succeeded = true ↔
      ∃ source, Source.ofPath read path = .ok source ∧
        (∃ out, parse c.options (unitKind path c.kind) source.text = .ok out) ∧
        ∀ d ∈ parseReports c.options (unitKind path c.kind) source.text,
          d.severity = .warning := by
  unfold parseFile
  cases Source.ofPath read path with
  | error e => simp [reportFile, Report.succeeded, Report.fail]
  | ok source =>
    have haccounts := parseCounts_accounts c.options (unitKind path c.kind) source.text
    have hzero := haccounts.errors_eq_zero_iff
    revert hzero
    unfold parseCounts
    cases hparse : parse c.options (unitKind path c.kind) source.text with
    | error e => simp [hparse, reportFile, Report.succeeded, Report.fail]
    | ok out =>
      intro hzero
      simp [hparse, Report.succeeded_iff, reportFile, Statistics.empty_merge, FileResult.stats,
        hzero, Diagnostic.isError_eq_false_iff]

theorem succeeded_turn {path : String} :
    (c.turn isTerminal read {} path).succeeded = true ↔ c.Accepts read path := by
  unfold turn Accepts
  cases c.mode with
  | tokens => exact succeeded_listFile
  | check | ast => exact succeeded_reportFile

/-! ## All files -/

theorem foldl_turn {r : Report} {files : List String}
    (h : ∀ phase isError, r.stats.counter phase isError + (files.map fun path =>
      (c.turn isTerminal read {} path).stats.counter phase isError).sum ≤
        Statistics.counterLimit) :
    files.foldl (c.turn isTerminal read) r =
      r ++ Report.join (files.map (c.turn isTerminal read {})) := by
  induction files generalizing r with
  | nil => exact r.append_empty.symm
  | cons path files ih =>
    simp only [List.map_cons, List.sum_cons] at h
    have hturn : c.turn isTerminal read r path = r ++ c.turn isTerminal read {} path :=
      turn_eq_append fun phase isError => by
        have := h phase isError
        omega
    have hlater : files.foldl (c.turn isTerminal read) (r ++ c.turn isTerminal read {} path) =
        (r ++ c.turn isTerminal read {} path) ++
          Report.join (files.map (c.turn isTerminal read {})) := by
      refine ih fun phase isError => ?_
      rw [Report.append_def, Statistics.counter_merge, Nat.add_assoc]
      exact h phase isError
    rw [List.foldl_cons, hturn, hlater, List.map_cons, Report.join_cons, Report.append_assoc]

/-- The same command line with this file only. -/
def only (c : CommandLine) (path : String) : CommandLine := { c with files := [path] }

variable (c isTerminal read)

theorem run_only (path : String) :
    (c.only path).run isTerminal read =
      { c.turn isTerminal read {} path with
        log := (c.turn isTerminal read {} path).log ++
          c.summary isTerminal (c.turn isTerminal read {} path) } := by
  have hpass : (c.only path).pass isTerminal read = c.turn isTerminal read {} path :=
    (c.only path).pass_eq_foldl isTerminal read
  unfold run
  rw [hpass]
  rfl

/-- How a run over many files is made up of runs over each file alone. -/
structure MadeUp (whole : Report) (alone : String → Report) : Prop where
  output : whole.output = String.join (c.files.map fun path => (alone path).output)
  /-- The log of each file is taken without its last line. -/
  log : ∃ body : String → String,
    (∀ path, (alone path).log = body path ++ c.summary isTerminal (alone path)) ∧
    whole.log = String.join (c.files.map body) ++ c.summary isTerminal whole
  unsummed : whole.stats.errors = 0 → whole.stats.warnings = 0 → c.summary isTerminal whole = ""
  stats : whole.stats = Statistics.sum (c.files.map fun path => (alone path).stats)
  failures : whole.failures = (c.files.map fun path => (alone path).failures).sum
  succeeded : whole.succeeded = true ↔ ∀ path ∈ c.files, (alone path).succeeded = true
  accepts : ∀ path, (alone path).succeeded = true ↔ c.Accepts read path

/-- A run over many files is made up of the runs over each file alone, as long as the sums of the
counters are within their limit. -/
theorem run_madeUp (h : ∀ phase isError, (c.files.map fun path =>
      ((c.only path).run isTerminal read).stats.counter phase isError).sum ≤
        Statistics.counterLimit) :
    c.MadeUp isTerminal read (c.run isTerminal read)
      (fun path => (c.only path).run isTerminal read) := by
  have hpass : c.pass isTerminal read =
      Report.join (c.files.map (c.turn isTerminal read {})) := by
    rw [pass_eq_foldl, foldl_turn, Report.empty_append]
    intro phase isError
    rw [Statistics.counter_empty, Nat.zero_add]
    simpa only [run_only] using h phase isError
  have hmap {β : Type} (f : Report → β) :
      (c.files.map (c.turn isTerminal read {})).map f =
        c.files.map fun path => f (c.turn isTerminal read {} path) := List.map_map
  simp only [run_only]
  unfold run
  rw [hpass]
  constructor
  · exact (Report.output_join _).trans (congrArg String.join (hmap _))
  · refine ⟨fun path => (c.turn isTerminal read {} path).log, fun path => rfl, ?_⟩
    exact congrArg (· ++ _) ((Report.log_join _).trans (congrArg String.join (hmap _)))
  · intro herrors hwarnings
    unfold summary
    rw [herrors, hwarnings]
    rfl
  · exact (Report.stats_join _).trans (congrArg Statistics.sum (hmap _))
  · exact (Report.failures_join _).trans (congrArg List.sum (hmap _))
  · refine Report.succeeded_join.trans ?_
    rw [List.forall_mem_map]
    exact Iff.rfl
  · exact fun path => succeeded_turn

/-- The symbols of three files, of which the second is missing and the third is the first again. -/
theorem run_madeUp_repeated :
    let c : CommandLine := { files := ["a.mod", "gone", "a.mod"], mode := .tokens }
    let read : FileReader := fun path =>
      if path = "a.mod" then .ok "MODULE m; $".toUTF8 else .error .notFound
    (∀ phase isError, (c.files.map fun path =>
      ((c.only path).run true read).stats.counter phase isError).sum ≤ Statistics.counterLimit) ∧
    c.MadeUp true read (c.run true read) fun path => (c.only path).run true read := by
  intro c read
  have h : ∀ phase isError, (c.files.map fun path =>
      ((c.only path).run true read).stats.counter phase isError).sum ≤
        Statistics.counterLimit := by
    rintro (_ | _ | _) (_ | _) <;> decide +kernel
  exact ⟨h, c.run_madeUp true read h⟩

end CommandLine

end Modula
