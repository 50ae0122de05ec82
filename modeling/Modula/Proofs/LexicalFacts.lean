import Modula.Lexical.Window
import Modula.Proofs.GathersRules
import Modula.Proofs.Sentences

/-!
# The lexical facts of a parse

The symbols of a source are drawn from one window, whoever draws them. A listing of the symbols
moves the window through the source without a stop. The grammar moves it symbol by symbol, puts
comments and pragmas aside, skips where it recovers from a fault, and may give up early. Wherever it
stops, it stands where a window stands that was moved some number of times: the lexical faults
recorded are those that this window has found, and the comments and pragmas put aside are those that
it has shown. A parse with a tree stops at the end of the source, so it has found them all, and its
table is the table of that window.
-/

namespace Modula

open Modula.Parser Modula.Grammar

/-! ## The window -/

/-- The table of the lexemes of a row of symbols. -/
def tableOf (seen : List Scanned) : Interner :=
  Interner.new.internAll (lexemes (seen.map Scanned.symbol))

theorem note_tableOf (seen : List Scanned) (s : Scanned) :
    Window.note (tableOf seen) s.symbol = tableOf (seen ++ [s]) := by
  unfold Window.note tableOf lexemes Interner.internAll
  rw [List.map_append, List.filterMap_append, List.foldl_append]
  cases h : s.symbol.lexeme? <;> simp [h]

namespace Window

/-- The window in front of a text, after so many moves. -/
def moved (o : LexicalOptions) (text : String) (moves : Nat) : Window :=
  Window.next^[moves] (ofText o text)

/-- What a window has come to know when it has shown the symbols in `seen`, the last one being its
lookahead, and those in `ahead` are behind it. -/
structure Stands (w : Window) (seen ahead : List Scanned) : Prop where
  lookahead : seen.getLast?.map Scanned.symbol = some w.lookahead
  ahead : w.ahead = ahead
  table : w.table = tableOf seen
  pending : w.pending = seen.flatMap Scanned.reports

theorem stands_ofText {o : LexicalOptions} {text : String} {s : Scanned} {ahead : List Scanned}
    (h : Scanned.stream o text = s :: ahead) : (ofText o text).Stands [s] ahead := by
  unfold ofText
  rw [h]
  exact ⟨rfl, rfl, note_tableOf [] s, by simp⟩

/-- One move shows one symbol more. -/
theorem Stands.next {w : Window} {seen ahead : List Scanned} {s : Scanned}
    (h : w.Stands seen (s :: ahead)) : w.next.Stands (seen ++ [s]) ahead := by
  have hnext : w.next =
      { w with
        current := w.lookahead
        lookahead := s.symbol
        ahead := ahead
        table := note w.table s.symbol
        pending := w.pending ++ s.reports } := by
    rw [Window.next, h.ahead]
  rw [hnext]
  refine ⟨by simp, rfl, ?_, ?_⟩
  · rw [h.table, note_tableOf]
  · rw [h.pending, List.flatMap_append]
    simp

/-- As many moves show as many symbols more. -/
theorem Stands.iterate_next {w : Window} {seen ahead : List Scanned} (later : List Scanned)
    (h : w.Stands seen (later ++ ahead)) :
    (Window.next^[later.length] w).Stands (seen ++ later) ahead := by
  induction later generalizing w seen with
  | nil => simpa using h
  | cons s later ih =>
    rw [List.length_cons, Function.iterate_succ_apply, List.append_cons]
    exact ih h.next

/-- Every part of a source that is not empty is shown by the window some time. -/
theorem exists_stands {o : LexicalOptions} {text : String} {seen ahead : List Scanned}
    (h : Scanned.stream o text = seen ++ ahead) (hne : seen ≠ []) :
    ∃ moves, (moved o text moves).Stands seen ahead := by
  cases seen with
  | nil => exact absurd rfl hne
  | cons s later => exact ⟨later.length, (stands_ofText h).iterate_next later⟩

end Window

/-! ## The grammar in front of the window -/

/-- The lexical ones of some reports. -/
def lexicalOnly (reports : List Diagnostic) : List Diagnostic :=
  reports.filter (·.phase = .lexical)

theorem lexicalOnly_append (ds es : List Diagnostic) :
    lexicalOnly (ds ++ es) = lexicalOnly ds ++ lexicalOnly es := List.filter_append ..

theorem OnlyLexical.lexicalOnly_eq {ds : List Diagnostic} (h : OnlyLexical ds) :
    lexicalOnly ds = ds := List.filter_eq_self.2 fun d hd => decide_eq_true (h d hd)

theorem lexicalOnly_singleton_of_syntactic {d : Diagnostic} (h : d.phase = .syntactic) :
    lexicalOnly [d] = [] := by
  rw [lexicalOnly, List.filter_singleton, h]
  rfl

/-- The comments and pragmas among some symbols. -/
def triviaOf (symbols : List Symbol) : List Symbol := symbols.filter (·.token.isTrivia)

theorem triviaOf_append (v w : List Symbol) : triviaOf (v ++ w) = triviaOf v ++ triviaOf w :=
  List.filter_append ..

/-- An item is a symbol that the grammar sees, with all that was scanned since the one before. -/
theorem Item.exists_of_ofStream_eq_cons {stream : List Scanned} {i : Item} {items : List Item}
    (h : ofStream stream = i :: items) :
    ∃ aside s later, stream = aside ++ s :: later ∧ i.symbol = s.symbol ∧
      i.reports = (aside ++ [s]).flatMap Scanned.reports ∧
      i.trivia = triviaOf ((aside ++ [s]).map Scanned.symbol) ∧ items = ofStream later := by
  induction stream generalizing i items with
  | nil => cases h
  | cons t stream ih =>
    rw [ofStream, List.foldr_cons, ← ofStream, consScanned.eq_def] at h
    by_cases ht : t.symbol.token.isTrivia = true
    · rw [if_pos ht] at h
      cases hs : ofStream stream with
      | nil => rw [hs] at h; cases h
      | cons j later =>
        rw [hs] at h
        cases h
        obtain ⟨aside, s, rest, rfl, hsym, hrep, htriv, hlater⟩ := ih hs
        refine ⟨t :: aside, s, rest, rfl, hsym, by simp [hrep], ?_, hlater⟩
        simp [htriv, triviaOf, ht]
    · rw [if_neg ht] at h
      cases h
      exact ⟨[], t, stream, rfl, rfl, by simp, by simp [triviaOf, ht], rfl⟩

namespace Progress

/-- The progress stands where the symbols in `seen` have been shown and those in `ahead` have not:
it knows the lexical faults and the comments and pragmas among what was shown. -/
structure HasSeen (p : Progress) (seen ahead : List Scanned) : Prop where
  lookahead : seen.getLast?.map Scanned.symbol = some p.lookahead
  ahead : p.ahead = Item.ofStream ahead
  lexical : lexicalOnly p.queue.toList = seen.flatMap Scanned.reports
  trivia : p.trivia.toList = triviaOf (seen.map Scanned.symbol)

theorem toList_trivia_view (p : Progress) (i : Item) (ahead : List Item) :
    (p.view i ahead).trivia.toList = p.trivia.toList ++ i.trivia := by
  rw [view]
  generalize p.trivia = seen
  induction i.trivia generalizing seen with
  | nil => simp
  | cons s trivia ih => rw [List.foldl_cons, ih]; simp

/-- Bringing the next item into view shows what belongs to it. -/
theorem hasSeen_view (seen : List Scanned) {p : Progress} {stream : List Scanned} {i : Item}
    {items : List Item}
    (hstream : ∀ s ∈ stream, OnlyLexical s.reports)
    (hlex : lexicalOnly p.queue.toList = seen.flatMap Scanned.reports)
    (htriv : p.trivia.toList = triviaOf (seen.map Scanned.symbol))
    (h : Item.ofStream stream = i :: items) :
    ∃ shown later, stream = shown ++ later ∧ (p.view i items).HasSeen (seen ++ shown) later := by
  obtain ⟨aside, s, later, rfl, hsym, hrep, htr, rfl⟩ := Item.exists_of_ofStream_eq_cons h
  have hi : OnlyLexical i.reports := by
    intro d hd
    rw [hrep] at hd
    obtain ⟨t, ht, hd⟩ := List.mem_flatMap.1 hd
    refine hstream t ?_ d hd
    rw [List.append_cons]
    exact List.mem_append_left _ ht
  refine ⟨aside ++ [s], later, by simp, ?_, rfl, ?_, ?_⟩
  · simp [view, hsym]
  · rw [view, Queue.toList_append, lexicalOnly_append, hlex, hi.lexicalOnly_eq, hrep,
      ← List.flatMap_append]
  · rw [toList_trivia_view, htriv, htr, ← triviaOf_append, ← List.map_append]

/-- Each step sees more of the stream or as much as before. -/
theorem Step.hasSeen {stream : List Scanned} (hstream : ∀ s ∈ stream, OnlyLexical s.reports)
    {p q : Progress} (h : Step p q)
    (hp : ∃ seen ahead, stream = seen ++ ahead ∧ p.HasSeen seen ahead) :
    ∃ seen ahead, stream = seen ++ ahead ∧ q.HasSeen seen ahead := by
  obtain ⟨seen, ahead, hsplit, hseen⟩ := hp
  cases h with
  | advance =>
    rw [Progress.advance]
    cases hahead : p.ahead with
    | nil => exact ⟨seen, ahead, hsplit, hseen⟩
    | cons i items =>
      have hlater : ∀ s ∈ ahead, OnlyLexical s.reports := by
        intro s hs
        refine hstream s ?_
        rw [hsplit]
        exact List.mem_append_right _ hs
      obtain ⟨shown, later, rfl, hview⟩ := hasSeen_view seen hlater hseen.lexical hseen.trivia
        (hseen.ahead.symm.trans hahead)
      exact ⟨seen ++ shown, later, by rw [hsplit, List.append_assoc], hview⟩
  | @report d hd =>
    refine ⟨seen, ahead, hsplit, hseen.lookahead, hseen.ahead, ?_, hseen.trivia⟩
    have hcode := hd.isRecoverable
    unfold Code.isRecoverable at hcode
    rw [Progress.report, Queue.toList_push, lexicalOnly_append, hseen.lexical,
      lexicalOnly_singleton_of_syntactic (of_decide_eq_true hcode).1, List.append_nil]
  | count f =>
    exact ⟨seen, ahead, hsplit, hseen.lookahead, hseen.ahead, hseen.lexical, hseen.trivia⟩

end Progress

section

variable {o : ParseOptions} {kind : UnitKind} {text : String}

theorem onlyLexical_of_mem_stream {o : LexicalOptions} {s : Scanned}
    (h : s ∈ Scanned.stream o text) : OnlyLexical s.reports :=
  fun d hd => onlyLexical_reports o text d (List.mem_flatMap.2 ⟨s, h, hd⟩)

theorem hasSeen_startOfUnit (o : LexicalOptions) (text : String) :
    ∃ seen ahead, Scanned.stream o text = seen ++ ahead ∧
      (startOfUnit o text).HasSeen seen ahead := by
  cases hitems : Item.ofStream (Scanned.stream o text) with
  | nil => exact absurd hitems (keeps_items o text).ne_nil
  | cons i items =>
    rw [startOfUnit, hitems, Progress.start]
    exact Progress.hasSeen_view [] (fun s => onlyLexical_of_mem_stream) rfl rfl hitems

/-- How the reading of a unit ends: where it gives up, this is reported behind all else. -/
theorem exec_compilationUnit_cases (o : ParseOptions) (kind : UnitKind) (text : String) :
    ∃ q, (startOfUnit o.lexical text).Steps q ∧
      ((∃ tree, (compilationUnit o kind).exec (startOfUnit o.lexical text) = (.ok tree, q)) ∨
        ∃ f d, d.phase = .syntactic ∧
          (compilationUnit o kind).exec (startOfUnit o.lexical text) = (.error f, q.report d)) := by
  by_cases hstart : (startOfUnit o.lexical text).lookahead.token ∈ startOf kind
  · have hunit := composed_unitRule o (startOfUnit o.lexical text).lookahead.token
    rw [exec_compilationUnit_of_mem hstart]
    obtain ⟨tree, q, hx, hsteps⟩ | ⟨q, hsteps, hx⟩ :=
      hunit.answers_or_gives_up (closed_startOfUnit o.lexical text)
    · exact ⟨q, hsteps, .inl ⟨tree, hx⟩⟩
    · exact ⟨q, hsteps, .inr ⟨_, _, rfl, hx⟩⟩
  · exact ⟨_, .refl _, .inr ⟨.failed .invalidStart, _, rfl, exec_compilationUnit_of_not_mem hstart⟩⟩

/-- Wherever a parse stops, it has seen a first part of the stream. -/
theorem hasSeen_of_parse (o : ParseOptions) (kind : UnitKind) (text : String) :
    ∃ seen ahead, Scanned.stream o.lexical text = seen ++ ahead ∧
      (readUnit o kind (Item.ofStream (Scanned.stream o.lexical text))).2.HasSeen seen ahead := by
  change ∃ seen ahead, _ ∧
    ((compilationUnit o kind).exec (startOfUnit o.lexical text)).2.HasSeen seen ahead
  obtain ⟨q, hsteps, hend⟩ := exec_compilationUnit_cases o kind text
  obtain ⟨seen, ahead, hsplit, hseen⟩ := hsteps.invariant
    (motive := fun p => ∃ seen ahead, Scanned.stream o.lexical text = seen ++ ahead ∧
      p.HasSeen seen ahead)
    (fun p r hstep => hstep.hasSeen fun s => onlyLexical_of_mem_stream)
    (hasSeen_startOfUnit o.lexical text)
  refine ⟨seen, ahead, hsplit, ?_⟩
  rcases hend with ⟨tree, hx⟩ | ⟨f, d, hd, hx⟩
  · rw [hx]
    exact hseen
  · rw [hx]
    refine ⟨hseen.lookahead, hseen.ahead, ?_, hseen.trivia⟩
    rw [Progress.report, Queue.toList_push, lexicalOnly_append, hseen.lexical,
      lexicalOnly_singleton_of_syntactic hd, List.append_nil]

theorem parseReports_eq_readUnit (o : ParseOptions) (kind : UnitKind) (text : String) :
    parseReports o kind text =
      (readUnit o kind (Item.ofStream (Scanned.stream o.lexical text))).2.queue.toList :=
  parseReports_eq o kind text

/-- The lexical faults that a parse reports are a first part of those of the source. -/
theorem lexicalOnly_parseReports_prefix (o : ParseOptions) (kind : UnitKind) (text : String) :
    lexicalOnly (parseReports o kind text) <+: (tokenize o.lexical text).reports := by
  obtain ⟨seen, ahead, hsplit, hseen⟩ := hasSeen_of_parse o kind text
  have hlexical := hseen.lexical
  rw [← parseReports_eq_readUnit] at hlexical
  rw [hlexical, tokenize, hsplit, List.flatMap_append]
  exact List.prefix_append _ _

/-- The comments and pragmas that a parse puts aside, whether or not it comes to a tree. -/
def parseTrivia (o : ParseOptions) (kind : UnitKind) (text : String) : List Symbol :=
  (readUnit o kind (Item.ofStream (Scanned.stream o.lexical text))).2.trivia.toList

theorem parseTrivia_of_parse_eq_ok {out : ParseOutput} (h : parse o kind text = .ok out) :
    out.trivia = parseTrivia o kind text := by
  rw [parse_eq_outcomeOf] at h
  unfold outcomeOf at h
  split at h
  · next tree p hx =>
    cases h
    exact (congrArg (·.2.trivia.toList) hx).symm
  · cases h

theorem Item.ofStream_ne_nil {stream : List Scanned} {s : Scanned} (hs : s ∈ stream)
    (ht : s.symbol.token.isTrivia = false) : ofStream stream ≠ [] := by
  induction stream with
  | nil => cases hs
  | cons t stream ih =>
    intro h
    rw [ofStream, List.foldr_cons, ← ofStream, consScanned.eq_def] at h
    split at h
    · next htt =>
      rcases List.mem_cons.1 hs with rfl | hs
      · rw [ht] at htt
        cases htt
      · split at h
        · next hnil => exact ih hs hnil
        · cases h
    · cases h

/-- With a tree, the whole stream was seen: its last symbol is the end of the source, and a parse
with a tree has come to it. -/
theorem hasSeen_of_parse_eq_ok {out : ParseOutput} (h : parse o kind text = .ok out) :
    (readUnit o kind (Item.ofStream (Scanned.stream o.lexical text))).2.HasSeen
      (Scanned.stream o.lexical text) [] := by
  have hends := ends_of_startsLike (startsLike_of_parse_eq_ok h)
  cases hends with
  | tooDeep e he => rw [h] at he; cases he
  | withTree out' p hparse hread hend =>
    obtain ⟨seen, ahead, hsplit, hseen⟩ := hasSeen_of_parse o kind text
    have hnil : ahead = [] := by
      rw [hread] at hseen
      by_contra hne
      obtain ⟨htoken, init, reports, hstream, -, -⟩ := Scanned.endsIn_stream o.lexical text
      have hlast : ahead.getLast hne =
          ⟨(Scanned.endOf text.toList).symbol, reports⟩ := by
        have := congrArg List.getLast? (hsplit.symm.trans hstream)
        rw [List.getLast?_append_of_ne_nil _ hne, List.getLast?_eq_some_getLast hne,
          List.getLast?_concat] at this
        exact Option.some.inj this
      refine Item.ofStream_ne_nil (List.getLast_mem hne) ?_ (hseen.ahead.symm.trans hend.2)
      rw [hlast, htoken]
      rfl
    rw [hnil, List.append_nil] at hsplit
    rw [hnil, ← hsplit] at hseen
    exact hseen

/-- The parser and a listing of the symbols see the same lexical facts. Wherever a parse stops, it
stands where a window stands after some moves, and has noted what this window has shown. So its
lexical faults and its comments and pragmas are first parts of those of the source, and with a tree
they are all of them, and the table holds the same strings at the same places. -/
theorem lexical_facts_of_parse (o : ParseOptions) (kind : UnitKind) (text : String) :
    lexicalOnly (parseReports o kind text) <+: (tokenize o.lexical text).reports ∧
    parseTrivia o kind text <+: triviaOf (tokenize o.lexical text).symbols ∧
    (∃ moves seen ahead, (Window.moved o.lexical text moves).Stands seen ahead ∧
      lexicalOnly (parseReports o kind text) = (Window.moved o.lexical text moves).pending ∧
      parseTrivia o kind text = triviaOf (seen.map Scanned.symbol)) ∧
    ∀ out, parse o kind text = .ok out →
      lexicalOnly out.reports = (tokenize o.lexical text).reports ∧
      out.trivia = triviaOf (tokenize o.lexical text).symbols ∧
      out.table.strings = (tokenize o.lexical text).table.strings ∧
      ∃ moves, (Window.moved o.lexical text moves).lookahead.token = .endOfFile ∧
        (Window.moved o.lexical text moves).pending = lexicalOnly out.reports ∧
        (Window.moved o.lexical text moves).table = out.table := by
  obtain ⟨seen, ahead, hsplit, hseen⟩ := hasSeen_of_parse o kind text
  have hlex := hseen.lexical
  rw [← parseReports_eq_readUnit] at hlex
  refine ⟨?_, ?_, ?_, fun out hout => ?_⟩
  · rw [hlex, tokenize, hsplit, List.flatMap_append]
    exact List.prefix_append _ _
  · rw [parseTrivia, hseen.trivia, tokenize, hsplit, List.map_append, triviaOf_append]
    exact List.prefix_append _ _
  · have hne : seen ≠ [] := by
      rintro rfl
      cases hseen.lookahead
    obtain ⟨moves, hw⟩ := Window.exists_stands hsplit hne
    exact ⟨moves, seen, ahead, hw, hlex.trans hw.pending.symm, hseen.trivia⟩
  · have hall := hasSeen_of_parse_eq_ok hout
    have hreports := hall.lexical
    rw [← parseReports_eq_readUnit, parseReports_of_parse_eq_ok hout] at hreports
    refine ⟨hreports, ?_, ?_, ?_⟩
    · rw [parseTrivia_of_parse_eq_ok hout, parseTrivia, hall.trivia]
      rfl
    · rw [table_of_parse hout]
    · obtain ⟨htoken, init, reports, hstream, -, -⟩ := Scanned.endsIn_stream o.lexical text
      have hne : Scanned.stream o.lexical text ≠ [] := by
        rw [hstream]
        exact List.concat_ne_nil _ _
      obtain ⟨moves, hw⟩ := Window.exists_stands (List.append_nil _).symm hne
      refine ⟨moves, ?_, hw.pending.trans hreports.symm, hw.table.trans (table_of_parse hout).symm⟩
      have hlast := hw.lookahead
      rw [hstream, List.getLast?_concat] at hlast
      rw [← Option.some.inj hlast]
      exact htoken

end

end Modula
