import Modula.Proofs.LexicalFacts
import Modula.Proofs.ManyFiles
import Modula.Proofs.Utf8Decoding

/-!
# The lines that are shown

When lines are asked for, a listing of symbols shows them from the text that was scanned. A check
reads the file again for them, and refuses bytes that are no text where the scanner replaces them.
So both show the same lines of a file that is text throughout, and of any other file the check
shows none.
-/

namespace Modula

/-- The lines of a diagnostic, and behind them the line of the text and a caret, if the text has
such a line. -/
def Terminal.showing (t : Terminal) (text : String) (d : Diagnostic) : String :=
  t.render d ++
    match Text.line? text d.line with
    | none => ""
    | some line => s!"  {line}\n  {Terminal.indent line d.column}" ++ t.paint .caret "^" ++ "\n"

namespace CommandLine

variable {c : CommandLine} {isTerminal : Bool} {read : FileReader} {path : String}

theorem render_terminal_some (text : String) :
    (c.terminal isTerminal path (some text)).render =
      (c.terminal isTerminal path none).showing text := by
  funext d
  have hnone : (c.terminal isTerminal path none).echoLine d.line d.column = "" := rfl
  unfold Terminal.showing Terminal.render
  rw [hnone, String.append_empty]
  rfl

/-- Bytes that are text throughout are shown as they are scanned, others are not. -/
theorem echoOf_eq {bytes : ByteArray} (hverbose : c.verbose = true)
    (hread : read path = .ok bytes) :
    (bytes.IsValidUTF8 → c.echoOf read path = some (Text.ofBytes bytes)) ∧
    (¬ bytes.IsValidUTF8 → c.echoOf read path = none) := by
  have hecho : c.echoOf read path = Text.ofValidBytes? bytes := by
    unfold echoOf
    rw [if_pos hverbose, hread]
  rw [hecho]
  constructor
  · intro h
    have hsome : Text.ofValidBytes? bytes = some (String.fromUTF8 bytes h) := dif_pos h
    rw [hsome, Text.ofBytes_of_ofValidBytes? hsome]
  · exact fun h => dif_neg h

theorem ofPath_eq_ok {bytes : ByteArray} (hname : (Path.fileName? path).isSome = true)
    (hread : read path = .ok bytes) : Source.ofPath read path = .ok ⟨Text.ofBytes bytes⟩ := by
  have hsome : ¬ (Path.fileName? path).isNone = true := by
    rw [Option.isNone_iff_eq_none]
    exact fun h => by rw [h] at hname; cases hname
  unfold Source.ofPath
  rw [if_neg hsome, hread]

/-- What follows the diagnostics of a text that was parsed: why there is no tree, if there is
none. -/
def refusal (c : CommandLine) (path text : String) : String :=
  match parse c.options (unitKind path c.kind) text with
  | .ok _ => ""
  | .error e => s!"{path}: fatal: {e.failure.message}\n"

variable (c isTerminal)

/-- What a listing logs of a file when lines are asked for. -/
theorem log_turn_of_tokens {text : String} (hverbose : c.verbose = true) (hmode : c.mode = .tokens)
    (hsource : Source.ofPath read path = .ok ⟨text⟩) :
    (c.turn isTerminal read {} path).log = String.join
      ((tokenize c.options.lexical text).reports.map
        ((c.terminal isTerminal path none).showing text)) := by
  unfold turn listFile
  rw [hmode, hsource, ← render_terminal_some]
  dsimp only
  rw [if_pos hverbose, String.empty_append]
  rfl

/-- What a check logs of a file. -/
theorem log_turn_of_parsed {text : String} (hmode : c.mode ≠ .tokens)
    (hsource : Source.ofPath read path = .ok ⟨text⟩) :
    (c.turn isTerminal read {} path).log = String.join
      ((parseReports c.options (unitKind path c.kind) text).map
        (c.terminal isTerminal path (c.echoOf read path)).render) ++ c.refusal path text := by
  have hturn : c.turn isTerminal read {} path =
      c.reportFile isTerminal read {} (path, c.parseFile read path) := by
    unfold turn
    cases hm : c.mode with
    | tokens => exact absurd hm hmode
    | check | ast => rfl
  rw [hturn]
  unfold reportFile parseFile parseReports refusal
  rw [hsource]
  dsimp only
  cases parse c.options (unitKind path c.kind) text with
  | ok out =>
    rw [String.append_empty]
    exact String.empty_append
  | error e => exact congrArg (· ++ _) String.empty_append

/-! ## The log of a run -/

theorem log_turn (r : Report) (path : String) :
    (c.turn isTerminal read r path).log = r.log ++ (c.turn isTerminal read {} path).log := by
  unfold turn
  cases c.mode with
  | tokens =>
    unfold listFile
    cases Source.ofPath read path <;> simp [Report.fail]
  | check | ast =>
    dsimp only
    rw [reportFile_eq_append]
    rfl

theorem log_foldl_turn (c : CommandLine) (isTerminal : Bool) (read : FileReader)
    (files : List String) (r : Report) :
    (files.foldl (c.turn isTerminal read) r).log =
      r.log ++ String.join (files.map fun path => (c.turn isTerminal read {} path).log) := by
  induction files generalizing r with
  | nil => exact String.append_empty.symm
  | cons path files ih =>
    rw [List.foldl_cons, ih, log_turn, List.map_cons, String.join_cons, String.append_assoc]

/-- The text that is logged of each file when lines are asked for. A listing of symbols prints every
diagnostic with the line of the scanned text, if there is one, and a check does so if the file is
text throughout. The lexical diagnostics of a check are among those of the listing, so that both
print the same lines for them. But if the file is not text throughout, a check prints no line of
it. -/
theorem verbose_echo (hverbose : c.verbose = true) :
    ∃ logOf : String → String,
      (c.run isTerminal read).log =
        String.join (c.files.map logOf) ++ c.summary isTerminal (c.run isTerminal read) ∧
      ∀ path bytes, (Path.fileName? path).isSome = true → read path = .ok bytes →
        let text := Text.ofBytes bytes
        let terminal := c.terminal isTerminal path none
        let listed := (tokenize c.options.lexical text).reports
        let parsed := parseReports c.options (unitKind path c.kind) text
        (c.mode = .tokens → logOf path = String.join (listed.map (terminal.showing text))) ∧
        (c.mode ≠ .tokens → bytes.IsValidUTF8 →
          logOf path = String.join (parsed.map (terminal.showing text)) ++ c.refusal path text) ∧
        (c.mode ≠ .tokens → ¬ bytes.IsValidUTF8 →
          logOf path = String.join (parsed.map terminal.render) ++ c.refusal path text) ∧
        lexicalOnly parsed <+: listed := by
  refine ⟨fun path => (c.turn isTerminal read {} path).log, ?_, fun path bytes hname hread => ?_⟩
  · have hlog := c.log_foldl_turn isTerminal read c.files {}
    rw [← pass_eq_foldl, String.empty_append] at hlog
    exact congrArg (· ++ _) hlog
  have hsource := ofPath_eq_ok hname hread
  obtain ⟨hvalid, hinvalid⟩ := echoOf_eq hverbose hread
  refine ⟨fun hmode => ?_, fun hmode h => ?_, fun hmode h => ?_, ?_⟩
  · exact c.log_turn_of_tokens isTerminal hverbose hmode hsource
  · have hlog := c.log_turn_of_parsed isTerminal hmode hsource
    rwa [hvalid h, render_terminal_some] at hlog
  · have hlog := c.log_turn_of_parsed isTerminal hmode hsource
    rwa [hinvalid h] at hlog
  · exact lexicalOnly_parseReports_prefix c.options (unitKind path c.kind) _

/-- A byte that is no text, in a listing. -/
theorem verbose_echo_listed :
    let c : CommandLine := { files := ["a.mod"], mode := .tokens, verbose := true }
    let bytes := "MODULE m; ".toUTF8.push 0xFF ++ " END m.\n".toUTF8
    let read : FileReader := fun _ => .ok bytes
    c.verbose = true ∧ ∃ logOf : String → String,
      (c.run false read).log = logOf "a.mod" ++ c.summary false (c.run false read) ∧
      logOf "a.mod" = String.join ((tokenize {} (Text.ofBytes bytes)).reports.map
        ((c.terminal false "a.mod" none).showing (Text.ofBytes bytes))) := by
  intro c bytes read
  obtain ⟨logOf, hrun, hfile⟩ := @verbose_echo c false read rfl
  obtain ⟨hlisted, -⟩ := hfile "a.mod" bytes (by decide +kernel) rfl
  rw [List.map_singleton, String.join_cons, String.join_nil, String.append_empty] at hrun
  exact ⟨rfl, logOf, hrun, hlisted rfl⟩

/-- Of the same file a check prints no line, though the text that it scans has the line. -/
theorem checked_without_line :
    let c : CommandLine := { files := ["a.mod"], verbose := true }
    let bytes := "MODULE m; ".toUTF8.push 0xFF ++ " END m.\n".toUTF8
    let read : FileReader := fun _ => .ok bytes
    Text.line? (Text.ofBytes bytes) 1 = some "MODULE m; \uFFFD END m." ∧
    (c.run false read).log =
      "a.mod:1:11: error[E0101]: illegal character '\uFFFD'\n" ++
      "error: aborting due to previous error\n" ∧
    ({ c with mode := .tokens }.run false read).log =
      "a.mod:1:11: error[E0101]: illegal character '\uFFFD'\n" ++
      "  MODULE m; \uFFFD END m.\n            ^\n" ++
      "error: aborting due to previous error\n" := by
  decide +kernel

end CommandLine

end Modula
