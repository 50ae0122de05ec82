import Modula.Proofs.AlikeRules

/-!
# What the grammar does not see

Two sources are parsed alike if the grammar cannot tell their symbols apart: if position by position
the tokens have one normal form, and identifiers are repeated at the same positions. Where the
symbols stand, what comments and pragmas are between them, how literals and identifiers are spelled
and whether the lexical rules found fault with them makes no difference.
-/

namespace Modula

open Modula.Parser Modula.Grammar

/-! ## Rows of symbols -/

/-- The symbols stand at one position of two rows. -/
def InOnePlace (w w' : List Symbol) (s s' : Symbol) : Prop := (s, s') ∈ w.zip w'

/-- The grammar cannot tell the rows of symbols apart. Identifiers are compared with each other
only, so that any two of one row are spelled the same if those in their places are. -/
structure Indistinguishable (w w' : List Symbol) : Prop where
  tokens : w.map (·.token.normal) = w'.map (·.token.normal)
  names : ∀ x ∈ w.zip w', ∀ y ∈ w.zip w', x.1.token ∈ identStart → y.1.token ∈ identStart →
    (x.1.text = y.1.text ↔ x.2.text = y.2.text)

namespace Indistinguishable

variable {w w' : List Symbol}

theorem length_eq (h : Indistinguishable w w') : w.length = w'.length := by
  simpa using congrArg List.length h.tokens

/-- Every symbol has one in its place. -/
theorem inOnePlace (h : Indistinguishable w w') : List.Forall₂ (InOnePlace w w') w w' :=
  List.forall₂_iff_zip.2 ⟨h.length_eq, id⟩

theorem normal_eq (h : Indistinguishable w w') {s s' : Symbol} (hs : InOnePlace w w' s s') :
    s.token.normal = s'.token.normal := by
  have hall : List.Forall₂ (fun s s' => s.token.normal = s'.token.normal) w w' := by
    rw [← List.forall₂_map_left_iff (R := fun t (s' : Symbol) => t = s'.token.normal),
      ← List.forall₂_map_right_iff (R := Eq), List.forall₂_eq_eq_eq]
    exact h.tokens
  exact (List.forall₂_iff_zip.1 hall).2 hs

end Indistinguishable

/-! ## What is noted -/

/-- The faults of the grammar among others. -/
def syntaxReports (ds : List Diagnostic) : List Diagnostic := ds.filter (·.phase = .syntactic)

theorem OnlyLexical.syntaxReports_eq_nil {ds : List Diagnostic} (h : OnlyLexical ds) :
    syntaxReports ds = [] := by
  refine List.filter_eq_nil_iff.2 fun d hd => ?_
  rw [h d hd]
  decide

namespace Statistics.SameCounts

theorem refl (s : Statistics) : s.SameCounts s := ⟨rfl, rfl, rfl, rfl, rfl⟩

theorem trans {s t u : Statistics} (h : s.SameCounts t) (h' : t.SameCounts u) : s.SameCounts u :=
  ⟨h.declarations.trans h'.declarations, h.procedures.trans h'.procedures,
    h.statements.trans h'.statements, h.syntaxWarnings.trans h'.syntaxWarnings,
    h.syntaxErrors.trans h'.syntaxErrors⟩

theorem symm {s t : Statistics} (h : s.SameCounts t) : t.SameCounts s :=
  ⟨h.declarations.symm, h.procedures.symm, h.statements.symm, h.syntaxWarnings.symm,
    h.syntaxErrors.symm⟩

/-- Lexical faults are counted elsewhere. -/
theorem of_lexical (s : Statistics) {ds : List Diagnostic} (h : OnlyLexical ds) :
    (ds.foldl Statistics.record s).SameCounts s := by
  induction ds generalizing s with
  | nil => exact refl s
  | cons d ds ih =>
    obtain ⟨hd, hds⟩ := List.forall_mem_cons.1 h
    refine (ih (s.record d) hds).trans ?_
    unfold Statistics.record
    rw [hd]
    cases d.isError <;> exact ⟨rfl, rfl, rfl, rfl, rfl⟩

/-- Faults of one sort are counted in one place. -/
theorem record {s t : Statistics} (h : s.SameCounts t) {d e : Diagnostic} (hp : d.phase = e.phase)
    (hs : d.isError = e.isError) : (s.record d).SameCounts (t.record e) := by
  obtain ⟨hd, hpr, hst, hw, he⟩ := h
  unfold Statistics.record
  rw [hp, hs]
  split
  all_goals first
    | exact ⟨hd, hpr, hst, hw, he⟩
    | exact ⟨hd, hpr, hst, congrArg bump hw, he⟩
    | exact ⟨hd, hpr, hst, hw, congrArg bump he⟩

end Statistics.SameCounts

variable {V : Symbol → Symbol → Prop}

/-- Two queues with the same faults of the grammar, and the same counts of the grammar. -/
structure Queue.SameNotes (V : Symbol → Symbol → Prop) (q q' : Queue) : Prop where
  reports : List.Forall₂ (Diagnostic.Corresponds V) (syntaxReports q.toList)
    (syntaxReports q'.toList)
  counts : q.stats.SameCounts q'.stats

namespace Queue.SameNotes

variable {q q' : Queue}

theorem empty : SameNotes V {} {} := ⟨.nil, .refl _⟩

/-- Lexical faults are not among these notes. -/
theorem append (h : SameNotes V q q') {ds ds' : List Diagnostic} (hl : OnlyLexical ds)
    (hl' : OnlyLexical ds') : SameNotes V (q.append ds) (q'.append ds') := by
  constructor
  · rw [toList_append, toList_append, syntaxReports, syntaxReports, List.filter_append,
      List.filter_append]
    change List.Forall₂ _ (syntaxReports q.toList ++ syntaxReports ds)
      (syntaxReports q'.toList ++ syntaxReports ds')
    rw [hl.syntaxReports_eq_nil, hl'.syntaxReports_eq_nil, List.append_nil, List.append_nil]
    exact h.reports
  · rw [stats_append, stats_append]
    exact ((Statistics.SameCounts.of_lexical _ hl).trans h.counts).trans
      (Statistics.SameCounts.of_lexical _ hl').symm

theorem push (h : SameNotes V q q') {d d' : Diagnostic} (hd : d.Corresponds V d') :
    SameNotes V (q.push d) (q'.push d') := by
  have hphase : d.phase = d'.phase := congrArg Code.phase hd.code
  constructor
  · rw [toList_push, toList_push, syntaxReports, syntaxReports, List.filter_append,
      List.filter_append]
    refine List.rel_append h.reports ?_
    rw [List.filter_singleton, List.filter_singleton, hphase]
    cases decide (d'.phase = .syntactic) with
    | true => exact .cons hd .nil
    | false => exact .nil
  · exact h.counts.record hphase (congrArg Severity.isError hd.severity)

end Queue.SameNotes

/-! ## Two runs side by side -/

/-- Points of two runs with symbols in front of them that correspond, and the same notes. -/
structure Progress.Abreast (V : Symbol → Symbol → Prop) (p p' : Progress) : Prop where
  symbols : List.Forall₂ V p.rest p'.rest
  lexical_left : ∀ i ∈ p.ahead, OnlyLexical i.reports
  lexical_right : ∀ i ∈ p'.ahead, OnlyLexical i.reports
  notes : p.queue.SameNotes V p'.queue

namespace Progress.Abreast

variable {p p' : Progress}

theorem lookahead (h : p.Abreast V p') : V p.lookahead p'.lookahead :=
  (List.forall₂_cons.1 h.symbols).1

theorem length_ahead (h : p.Abreast V p') : p.ahead.length = p'.ahead.length := by
  simpa using (List.forall₂_cons.1 h.symbols).2.length_eq

theorem advance (h : p.Abreast V p') : p.advance.Abreast V p'.advance := by
  obtain ⟨hsymbols, hleft, hright, hnotes⟩ := h
  have hahead : List.Forall₂ V (p.ahead.map Item.symbol) (p'.ahead.map Item.symbol) :=
    (List.forall₂_cons.1 hsymbols).2
  unfold Progress.advance
  cases hp : p.ahead with
  | nil =>
    rw [hp, List.map_nil, List.forall₂_nil_left_iff, List.map_eq_nil_iff] at hahead
    rw [hahead]
    exact ⟨hsymbols, hleft, hright, hnotes⟩
  | cons i ahead =>
    cases hp' : p'.ahead with
    | nil =>
      rw [hp, hp'] at hahead
      cases hahead
    | cons i' ahead' =>
      rw [hp, hp'] at hahead
      obtain ⟨hi, hleft⟩ := List.forall_mem_cons.1 (hp ▸ hleft)
      obtain ⟨hi', hright⟩ := List.forall_mem_cons.1 (hp' ▸ hright)
      exact ⟨hahead, hleft, hright, hnotes.append hi hi'⟩

theorem report (h : p.Abreast V p') {d d' : Diagnostic} (hd : d.Corresponds V d') :
    (p.report d).Abreast V (p'.report d') :=
  ⟨h.symbols, h.lexical_left, h.lexical_right, h.notes.push hd⟩

theorem count (h : p.Abreast V p') {f : Statistics → Statistics} (hf : Statistics.Tallies f) :
    (p.count f).Abreast V (p'.count f) :=
  ⟨h.symbols, h.lexical_left, h.lexical_right, h.notes.reports, hf.sameCounts h.notes.counts⟩

end Progress.Abreast

/-- At the start of a unit only lexical faults have been noted. -/
theorem sameNotes_startOfUnit (o o' : LexicalOptions) (text text' : String) :
    (startOfUnit o text).queue.SameNotes V (startOfUnit o' text').queue := by
  have hstart (o : LexicalOptions) (text : String) : ∃ ds, OnlyLexical ds ∧
      (startOfUnit o text).queue = ({} : Queue).append ds := by
    have hall : OnlyLexical ((Item.ofStream (Scanned.stream o text)).flatMap Item.reports) := by
      rw [(keeps_items o text).reports]
      exact onlyLexical_reports o text
    unfold startOfUnit
    cases hitems : Item.ofStream (Scanned.stream o text) with
    | nil => exact ⟨[], .nil, rfl⟩
    | cons i ahead =>
      rw [hitems] at hall
      exact ⟨i.reports, fun d hd => hall d (List.mem_append_left _ hd), rfl⟩
  obtain ⟨ds, hds, hq⟩ := hstart o text
  obtain ⟨ds', hds', hq'⟩ := hstart o' text'
  rw [hq, hq']
  exact Queue.SameNotes.empty.append hds hds'

theorem abreast_startOfUnit {o o' : LexicalOptions} {text text' : String}
    (h : List.Forall₂ V (tokenize o text).semantic (tokenize o' text').semantic) :
    (startOfUnit o text).Abreast V (startOfUnit o' text') where
  symbols := by
    rw [rest_startOfUnit, rest_startOfUnit]
    exact h
  lexical_left := (passing_startOfUnit o text).ahead
  lexical_right := (passing_startOfUnit o' text').ahead
  notes := sameNotes_startOfUnit o o' text text'

/-- Runs are alike if they stay abreast, and fail together. -/
def Likeness.abreast {w w' : List Symbol} (h : Indistinguishable w w') (limit : Nat) :
    Likeness where
  symbol := InOnePlace w w'
  progress := Progress.Abreast (InOnePlace w w')
  failed f q f'? q' := f'? = some f ∧ q.Abreast (InOnePlace w w') q'
  limit := limit
  normal_eq := h.normal_eq
  text_eq_iff hs ht := h.names _ hs _ ht
  lookahead := Progress.Abreast.lookahead
  length_ahead := Progress.Abreast.length_ahead
  advance := Progress.Abreast.advance
  report hp hd := hp.report hd
  count hp hf := hp.count hf
  endless hq := ⟨rfl, hq⟩
  failed_later hf _ := nomatch hf.1

/-! ## Parses of two sources -/

/-- Two parses come to the same end, with trees, faults of the grammar and counts of the grammar
that correspond. -/
inductive SameOutcome (V : Symbol → Symbol → Prop) :
    Except ParseFailure ParseOutput → Except ParseFailure ParseOutput → Prop where
  /-- Both come to a tree. -/
  | withTree {out out' : ParseOutput} (tree : out.tree.Corresponds V out'.tree)
    (reports : List.Forall₂ (Diagnostic.Corresponds V) (syntaxReports out.reports)
      (syntaxReports out'.reports))
    (counts : out.stats.SameCounts out'.stats) : SameOutcome V (.ok out) (.ok out')
  /-- Both fail, and for the same reason. -/
  | failed {e e' : ParseFailure} (failure : e.failure = e'.failure)
    (reports : List.Forall₂ (Diagnostic.Corresponds V) (syntaxReports e.reports)
      (syntaxReports e'.reports))
    (counts : e.stats.SameCounts e'.stats) : SameOutcome V (.error e) (.error e')

theorem Queue.SameNotes.counts_with_lines {q q' : Queue} (h : q.SameNotes V q') (m n : Nat) :
    { q.stats with lines := m }.SameCounts { q'.stats with lines := n } :=
  ⟨h.counts.declarations, h.counts.procedures, h.counts.statements, h.counts.syntaxWarnings,
    h.counts.syntaxErrors⟩

section

variable {o o' : ParseOptions} {kind : UnitKind} {text text' : String}

/-- Readings that end alike are parses that do. -/
theorem sameOutcome_of_ends {w w' : List Symbol} {h : Indistinguishable w w'} {n : Nat}
    {x x' : Except Stop Node × Progress}
    (hx : (Likeness.abreast h n).Ends (Comparable.rel (Likeness.abreast h n)) x x') :
    SameOutcome (InOnePlace w w') (outcomeOf o.lexical text x) (outcomeOf o'.lexical text' x') := by
  cases hx with
  | answered htree hq =>
    exact .withTree htree hq.notes.reports (hq.notes.counts_with_lines _ _)
  | @failed f q q' y hf =>
    obtain ⟨hy, hq⟩ := hf
    cases y with
    | ok => cases hy
    | error f' =>
      cases hy
      exact .failed rfl hq.notes.reports (hq.notes.counts_with_lines _ _)

/-- Two runs for which there are no levels left give up side by side. -/
theorem alike_nested_zero (hlimit : o.maxNesting = o'.maxNesting) {w w' : List Symbol}
    (h : Indistinguishable w w') (x : Nested) :
    Alike (Likeness.abreast h o'.maxNesting) (nested o 0 x) (nested o' 0 x) := by
  refine ⟨fun p p' hp => .failed (f := .failed (.nestingTooDeep o.maxNesting)) ⟨?_, ?_⟩⟩
  · rw [hlimit]
    rfl
  · exact hp.report (Likeness.faultAt_corresponds (L := .abreast h o'.maxNesting) _ hp.lookahead)

theorem ends_of_abreast (hgrammar : o.SameGrammar o') (hlimit : o.maxNesting = o'.maxNesting)
    {w w' : List Symbol} (h : Indistinguishable w w') {p p' : Progress}
    (hp : p.Abreast (InOnePlace w w') p') :
    (Likeness.abreast h o'.maxNesting).Ends (Comparable.rel (Likeness.abreast h o'.maxNesting))
      ((compilationUnit o kind).exec p) ((compilationUnit o' kind).exec p') := by
  have hp : (Likeness.abreast h o'.maxNesting).progress p p' := hp
  by_cases hstart : p.lookahead.token ∈ startOf kind
  · have := hgrammar.alike (L := .abreast h o'.maxNesting)
    refine ends_compilationUnit rfl (Nat.le_of_eq hlimit) (fun x => ?_) hp hstart
    rw [hlimit, Nat.sub_self]
    exact alike_nested_zero hlimit h x
  · rw [exec_compilationUnit_of_not_mem hstart,
      exec_compilationUnit_of_not_mem ((mem_startOf_iff hp).not.1 hstart)]
    have hfault := Likeness.faultBy_corresponds (L := .abreast h o'.maxNesting) .invalidStart
      hp.lookahead
    exact .failed ⟨rfl, hp.report (Likeness.expecting hfault (.set _))⟩

end

/-- A parse depends on nothing but token classes and the repetition of identifiers. Two sources with
symbols that the grammar cannot tell apart come to the same end, whatever their lexical options:
both fail, and for the same reason, or both have trees, of the same shape and kinds and with leaves
from symbols at one position. The grammar reports the same faults at symbols in one position,
expecting the same in their place, and its counts are the same. -/
theorem parse_indifferent (o o' : ParseOptions) (kind : UnitKind) (text text' : String)
    (hgrammar : o.SameGrammar o') (hlimit : o.maxNesting = o'.maxNesting)
    (h : Indistinguishable (tokenize o.lexical text).semantic
      (tokenize o'.lexical text').semantic) :
    SameOutcome (InOnePlace (tokenize o.lexical text).semantic (tokenize o'.lexical text').semantic)
      (parse o kind text) (parse o' kind text') := by
  rw [parse_eq_outcomeOf, parse_eq_outcomeOf]
  exact sameOutcome_of_ends
    (ends_of_abreast hgrammar hlimit h (abreast_startOfUnit h.inOnePlace))

/-- Another layout, other names, a comment, a malformed identifier and a malformed number make no
difference, not even to the fault that the last name is not that of the module. -/
theorem parse_indifferent_respelled :
    Indistinguishable (tokenize {} "MODULE m; BEGIN x := 1 END x.").semantic
        (tokenize { lowline := true } "MODULE a_b;\n(* set *) BEGIN c_ := 12a END c_.").semantic ∧
      SameOutcome
        (InOnePlace (tokenize {} "MODULE m; BEGIN x := 1 END x.").semantic
          (tokenize { lowline := true } "MODULE a_b;\n(* set *) BEGIN c_ := 12a END c_.").semantic)
        (parse {} .any "MODULE m; BEGIN x := 1 END x.")
        (parse { lexical := { lowline := true } } .any
          "MODULE a_b;\n(* set *) BEGIN c_ := 12a END c_.") := by
  have h : Indistinguishable (tokenize {} "MODULE m; BEGIN x := 1 END x.").semantic
      (tokenize { lowline := true } "MODULE a_b;\n(* set *) BEGIN c_ := 12a END c_.").semantic :=
    ⟨by decide +kernel, by decide +kernel⟩
  exact ⟨h, parse_indifferent {} { lexical := { lowline := true } } .any _ _ ⟨rfl, rfl⟩ rfl h⟩

end Modula
