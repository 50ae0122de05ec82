import Modula.Diagnostic.Terminal
import Modula.Proofs.ExactPositions
import Modula.Proofs.LexicalFacts
import Modula.Proofs.ReportPlaces

/-!
# Where carets stand

A column counts bytes, and a caret is moved by one blank for each character. A fault is reported
behind some characters at the start of its line, and what these have in bytes is told by the column.
So the caret stands under the fault if all of them have one byte. Otherwise it stands too far to the
right, by as many characters as there are bytes too many, but no further than the line goes.
-/

namespace Modula

/-! ## Characters and bytes -/

namespace Text

theorem utf8ByteSize_cons (c : Char) (cs : List Char) :
    (String.ofList (c :: cs)).utf8ByteSize = c.utf8Size + (String.ofList cs).utf8ByteSize := by
  rw [← length_encode, ← length_encode, encode, List.flatMap_cons, List.length_append,
    String.length_utf8EncodeChar]
  rfl

/-- A character has a byte at least. -/
theorem length_le_utf8ByteSize (cs : List Char) : cs.length ≤ (String.ofList cs).utf8ByteSize := by
  induction cs with
  | nil => exact Nat.zero_le _
  | cons c cs ih =>
    have := c.utf8Size_pos
    rw [utf8ByteSize_cons, List.length_cons]
    omega

theorem utf8ByteSize_eq_length_iff {cs : List Char} :
    (String.ofList cs).utf8ByteSize = cs.length ↔ ∀ c ∈ cs, c.utf8Size = 1 := by
  induction cs with
  | nil => exact iff_of_true rfl nofun
  | cons c cs ih =>
    have hpos := c.utf8Size_pos
    have hle := length_le_utf8ByteSize cs
    rw [utf8ByteSize_cons, List.length_cons, List.forall_mem_cons, ← ih]
    omega

/-- Of two starts of a text, the one with fewer bytes is a start of the other. -/
theorem prefix_of_utf8ByteSize_le {a b cs : List Char} (ha : a <+: cs) (hb : b <+: cs)
    (h : (String.ofList a).utf8ByteSize ≤ (String.ofList b).utf8ByteSize) : a <+: b := by
  rcases List.prefix_or_prefix_of_prefix ha hb with hab | ⟨u, hu⟩
  · exact hab
  · have hlength := length_le_utf8ByteSize u
    rw [← hu, String.ofList_append, String.utf8ByteSize_append] at h
    have hnil : u = [] := List.length_eq_zero_iff.1 (by omega)
    rw [hnil, List.append_nil] at hu
    rw [hu]

/-! ## Lines -/

/-- The text ends where a line ends. -/
def EndsLine (cs : List Char) : Prop := cs = [] ∨ ∃ front, cs = front ++ ['\n']

theorem EndsLine.of_cons {c d : Char} {cs : List Char} (h : EndsLine (c :: d :: cs)) :
    EndsLine (d :: cs) := by
  obtain h | ⟨front, hfront⟩ := h
  · cases h
  · cases front with
    | nil => cases hfront
    | cons e front => exact .inr ⟨front, (List.cons.inj hfront).2⟩

/-- The last line of a text, perhaps empty, begins where another one ends. -/
theorem exists_lineStart (cs : List Char) :
    ∃ earlier last, cs = earlier ++ last ∧ EndsLine earlier ∧ '\n' ∉ last := by
  induction cs using List.reverseRecOn with
  | nil => exact ⟨[], [], rfl, .inl rfl, List.not_mem_nil⟩
  | append_singleton cs c ih =>
    by_cases hc : c = '\n'
    · exact ⟨cs ++ [c], [], (List.append_nil _).symm, .inr ⟨cs, by rw [hc]⟩, List.not_mem_nil⟩
    · obtain ⟨earlier, last, rfl, hends, hlast⟩ := ih
      refine ⟨earlier, last ++ [c], List.append_assoc .., hends, ?_⟩
      rw [List.mem_append, List.mem_singleton, not_or]
      exact ⟨hlast, Ne.symm hc⟩

/-- Where a line ends, a text can be cut in two before it is cut into lines. -/
theorem cutLines_append {earlier : List Char} (h : EndsLine earlier) (cs : List Char) :
    cutLines (earlier ++ cs) = cutLines earlier ++ cutLines cs ∧
      (cutLines earlier).length = earlier.count '\n' := by
  induction earlier with
  | nil => exact ⟨rfl, rfl⟩
  | cons c earlier ih =>
    cases earlier with
    | nil =>
      obtain h | ⟨front, hfront⟩ := h
      · cases h
      · cases front with
        | nil => cases hfront; exact ⟨rfl, rfl⟩
        | cons d front => simp at hfront
    | cons d earlier =>
      obtain ⟨hcut, hlength⟩ := ih h.of_cons
      have hne : cutLines (d :: earlier) ≠ [] := cutLines_ne_nil (List.cons_ne_nil _ _)
      have hcons (rest : List Char) :
          cutLines (c :: rest) = consLine c (cutLines rest) := rfl
      constructor
      · rw [List.cons_append, hcons, hcut, hcons]
        unfold consLine
        split
        · rfl
        · cases hlines : cutLines (d :: earlier) with
          | nil => exact absurd hlines hne
          | cons first later => rfl
      · rw [hcons, length_consLine c hne, hlength]
        by_cases hc : c = '\n' <;> simp [hc]

theorem prefix_dropTerminator (line : List Char) : dropTerminator line <+: line := by
  unfold dropTerminator
  split
  · next front h =>
    refine ⟨['\r', '\n'], ?_⟩
    rw [← List.reverse_reverse line, h]
    simp
  · next front _ h =>
    refine ⟨['\n'], ?_⟩
    rw [← List.reverse_reverse line, h]
    simp
  · exact List.prefix_refl _

/-- The text of a line starts where the line before ends. -/
theorem prefix_of_line? {text line : String} {earlier rest : List Char}
    (htext : text.toList = earlier ++ rest) (hearlier : EndsLine earlier)
    (hline : line? text (1 + earlier.count '\n') = some line) : line.toList <+: rest := by
  obtain ⟨hcut, hlength⟩ := cutLines_append hearlier rest
  have hget : line? text (1 + earlier.count '\n') =
      (cutLines rest)[0]?.map fun line => String.ofList (dropTerminator line) := by
    rw [line?, if_neg (by omega), Nat.add_sub_cancel_left, htext, hcut, ← hlength,
      List.getElem?_append_right (Nat.le_refl _), Nat.sub_self]
  rw [hget, Option.map_eq_some_iff] at hline
  obtain ⟨first, hfirst, rfl⟩ := hline
  rw [String.toList_ofList]
  refine (prefix_dropTerminator first).trans ?_
  rw [← flatten_cutLines rest]
  cases hlines : cutLines rest with
  | nil => rw [hlines] at hfirst; cases hfirst
  | cons l ls =>
    rw [hlines] at hfirst
    rw [← Option.some.inj hfirst]
    exact List.prefix_append _ _

end Text

namespace Position

theorem column_after_of_notMem {cs : List Char} (h : '\n' ∉ cs) (p : Position) :
    (p.after cs).column = p.column + (String.ofList cs).utf8ByteSize := by
  induction cs generalizing p with
  | nil => rfl
  | cons c cs ih =>
    obtain ⟨hc, hcs⟩ := not_or.1 (mt List.mem_cons.2 h)
    rw [after_cons, ih hcs, Text.utf8ByteSize_cons, next, if_neg (Ne.symm hc)]
    exact Nat.add_assoc ..

theorem column_after_of_endsLine {cs : List Char} (h : Text.EndsLine cs) :
    (start.after cs).column = 1 := by
  obtain rfl | ⟨front, rfl⟩ := h
  · rfl
  · rw [after_append]
    rfl

/-- A position on a line is behind some characters of the line, whose bytes its column counts. -/
theorem exists_before {text line : String} {front : List Char} (hfront : front <+: text.toList)
    (hline : Text.line? text (start.after front).line = some line)
    (hcolumn : (start.after front).column ≤ line.utf8ByteSize + 1) :
    ∃ before behind, line = before ++ behind ∧
      (start.after front).column = before.utf8ByteSize + 1 := by
  obtain ⟨earlier, last, rfl, hearlier, hlast⟩ := Text.exists_lineStart front
  obtain ⟨back, hback⟩ := hfront
  rw [List.append_assoc] at hback
  have hplace : (start.after (earlier ++ last)).line = 1 + earlier.count '\n' := by
    rw [line_after, List.count_append, List.count_eq_zero.2 hlast]
    rfl
  have hbytes : (start.after (earlier ++ last)).column =
      1 + (String.ofList last).utf8ByteSize := by
    rw [after_append, column_after_of_notMem hlast, column_after_of_endsLine hearlier]
  rw [hplace] at hline
  rw [hbytes] at hcolumn
  have hprefix : last <+: line.toList := by
    refine Text.prefix_of_utf8ByteSize_le (List.prefix_append last back)
      (Text.prefix_of_line? hback.symm hearlier hline) ?_
    rw [String.ofList_toList]
    omega
  obtain ⟨behind, hbehind⟩ := hprefix
  refine ⟨String.ofList last, String.ofList behind, ?_, by rw [hbytes, Nat.add_comm]⟩
  rw [← String.ofList_append, hbehind, String.ofList_toList]

end Position

/-! ## Faults on a line -/

/-- Every fault that a parse reports is found behind some characters at the start of the source. -/
theorem exists_prefix_of_mem_parseReports {o : ParseOptions} {kind : UnitKind} {text : String}
    {d : Diagnostic} (h : d ∈ parseReports o kind text) :
    ∃ front, front <+: text.toList ∧ d.IsAt (Position.start.after front) := by
  have hphase : d.phase = .lexical ∨ d.phase = .syntactic := by
    rw [Diagnostic.phase]
    cases d.code <;> decide
  rcases hphase with hlexical | hsyntactic
  · have hmem : d ∈ lexicalOnly (parseReports o kind text) :=
      List.mem_filter.2 ⟨h, decide_eq_true hlexical⟩
    have hreported := lexicalOnly_parseReports_prefix o kind text
    exact exists_prefix_of_mem_reports (hreported.subset hmem)
  · have hmem : d ∈ syntaxReports (parseReports o kind text) :=
      List.mem_filter.2 ⟨h, decide_eq_true hsyntactic⟩
    obtain ⟨-, -, places, -, -, hplaces⟩ := (placed_of_parse o kind text).places
    rw [← parseReports_eq] at hplaces
    obtain ⟨n, hn, rfl⟩ := List.getElem_of_mem hmem
    obtain ⟨earlier, s, behind, hsymbols, -, hl, hc, -⟩ := hplaces.get hn (hplaces.length_eq ▸ hn)
    have hs : s ∈ (tokenize o.lexical text).semantic := by
      rw [hsymbols]
      exact List.mem_append_right _ List.mem_cons_self
    obtain ⟨front, hfront, hposition⟩ := exists_prefix_of_mem_symbols (List.mem_filter.1 hs).1
    exact ⟨front, hfront, hposition ▸ ⟨hl, hc⟩⟩

/-! ## The caret -/

/-- Blanks that take as much room as the characters: one for each, but a tab for a tab. -/
def Text.blanks (cs : List Char) : String :=
  String.ofList (cs.map fun c => if c = '\t' then '\t' else ' ')

theorem Text.blanks_append_eq_iff {a b : List Char} : blanks (a ++ b) = blanks a ↔ b = [] := by
  constructor
  · intro h
    have hlength := congrArg (List.length ∘ String.toList) h
    simpa [blanks] using hlength
  · rintro rfl
    rw [List.append_nil]

/-- A diagnostic and a line below it, and below the line a caret behind blanks for the characters. -/
def Terminal.pointing (t : Terminal) (d : Diagnostic) (line : String) (cs : List Char) : String :=
  { t with echo := none }.render d ++ "  " ++ line ++ "\n  " ++ Text.blanks cs ++
    t.paint .caret "^" ++ "\n"

theorem Terminal.pointing_eq_iff {t : Terminal} {d : Diagnostic} {line : String}
    {as bs : List Char} :
    t.pointing d line as = t.pointing d line bs ↔ Text.blanks as = Text.blanks bs := by
  simp only [pointing, ← String.toList_inj, String.toList_append, List.append_cancel_right_eq,
    List.append_cancel_left_eq]

/-- When the lines of a text are shown, the caret is moved by the characters in front of it. -/
theorem Terminal.render_eq_pointing {t : Terminal} {text line : String} {d : Diagnostic}
    (hecho : t.echo = some text) (hline : Text.line? text d.line = some line) :
    t.render d = t.pointing d line (line.toList.take (d.column - 1)) := by
  have hshown : t.echoLine d.line d.column =
      s!"  {line}\n  {indent line d.column}" ++ t.paint .caret "^" ++ "\n" := by
    rw [echoLine, hecho, Option.bind_some, hline]
  unfold pointing render
  rw [hshown]
  simp only [echoLine, originText, paint, Option.bind_none, String.append_empty,
    String.append_assoc]
  rfl

/-- How the caret stands below a line, where a fault is reported behind some characters of it. -/
structure Terminal.Points (t : Terminal) (d : Diagnostic) (before behind : String) : Prop where
  column_eq : d.column = before.utf8ByteSize + 1
  /-- There is a blank for each character in front, and for as many of the characters that follow
  as there are bytes too many. -/
  render_eq : t.render d = t.pointing d (before ++ behind)
    (before.toList ++ behind.toList.take (before.utf8ByteSize - before.length))
  /-- The caret stands under the fault exactly if all characters in front have one byte, or if
  nothing follows. -/
  under_iff : t.render d = t.pointing d (before ++ behind) before.toList ↔
    (∀ c ∈ before.toList, c.utf8Size = 1) ∨ behind = ""

/-- Where the caret stands. Every fault of a source whose line exists, and whose column lies within
the line, is reported behind some characters of the line, whose bytes its column counts. The caret
stands under the fault if these have one byte each, and otherwise too far to the right. -/
theorem caret_of_report {o : ParseOptions} {kind : UnitKind} {text line : String} {d : Diagnostic}
    {t : Terminal} (hd : d ∈ (tokenize o.lexical text).reports ∨ d ∈ parseReports o kind text)
    (hline : Text.line? text d.line = some line) (hcolumn : d.column ≤ line.utf8ByteSize + 1)
    (hecho : t.echo = some text) :
    ∃ before behind, line = before ++ behind ∧ t.Points d before behind := by
  have hplace : ∃ front, front <+: text.toList ∧ d.IsAt (Position.start.after front) :=
    hd.elim exists_prefix_of_mem_reports exists_prefix_of_mem_parseReports
  obtain ⟨front, hfront, hl, hc⟩ := hplace
  obtain ⟨before, behind, rfl, hbytes⟩ := Position.exists_before hfront (hl ▸ hline) (hc ▸ hcolumn)
  have hle : before.length ≤ before.utf8ByteSize := by
    have := Text.length_le_utf8ByteSize before.toList
    rwa [String.ofList_toList] at this
  have hbytewise : before.utf8ByteSize = before.length ↔ ∀ c ∈ before.toList, c.utf8Size = 1 := by
    have := @Text.utf8ByteSize_eq_length_iff before.toList
    rwa [String.ofList_toList] at this
  have hrender : t.render d = t.pointing d (before ++ behind)
      (before.toList ++ behind.toList.take (before.utf8ByteSize - before.length)) := by
    rw [Terminal.render_eq_pointing hecho hline, hc, hbytes, Nat.add_sub_cancel,
      String.toList_append, List.take_append, List.take_of_length_le hle]
    rfl
  refine ⟨before, behind, rfl, hc.trans hbytes, hrender, ?_⟩
  rw [hrender, Terminal.pointing_eq_iff, Text.blanks_append_eq_iff, List.take_eq_nil_iff,
    ← hbytewise, String.toList_eq_nil_iff]
  exact or_congr_left (by omega)

/-- A character of two bytes in front of a fault. -/
theorem caret_of_report_in_accented_line :
    let text := "\t\"é\" $;\n"
    let d := { Diagnostic.new .illegalCharacter 1 7 with char := some '$' }
    let t : Terminal := { painted := true, echo := some text }
    d ∈ (tokenize {} text).reports ∧ Text.line? text d.line = some "\t\"é\" $;" ∧
    d.column ≤ "\t\"é\" $;".utf8ByteSize + 1 ∧
    ∃ before behind, "\t\"é\" $;" = before ++ behind ∧ t.Points d before behind := by
  intro text d t
  have hd : d ∈ (tokenize {} text).reports := by decide +kernel
  have hline : Text.line? text d.line = some "\t\"é\" $;" := by decide +kernel
  have hcolumn : d.column ≤ "\t\"é\" $;".utf8ByteSize + 1 := by decide +kernel
  exact ⟨hd, hline, hcolumn,
    @caret_of_report {} .any text _ d t (.inl hd) hline hcolumn rfl⟩

/-- The caret does not stand under every fault: a quoted `é` moves it beside a stray character. -/
theorem not_forall_caret_under_fault :
    ¬ ∀ (text line before behind : String) (d : Diagnostic), d ∈ parseReports {} .any text →
      Text.line? text d.line = some line → line = before ++ behind →
      d.column = before.utf8ByteSize + 1 → behind ≠ "" →
      ({ echo := some text } : Terminal).render d =
        ({ echo := some text } : Terminal).pointing d line before.toList := by
  intro h
  have hunder := h "MODULE m; BEGIN x := \"é\" $ END m." _ "MODULE m; BEGIN x := \"é\" " "$ END m."
    { Diagnostic.new .illegalCharacter 1 27 with char := some '$' } (by decide +kernel)
    (by decide +kernel) rfl (by decide +kernel) (by decide)
  revert hunder
  decide +kernel

end Modula
