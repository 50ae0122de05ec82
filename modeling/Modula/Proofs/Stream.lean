import Modula.Proofs.Readings
import Modula.Proofs.Steps
import Modula.Proofs.StringTables

/-!
# The start of a unit

What the grammar finds in front of it when it starts on a source: the symbols of the source without
comments and pragmas, the end of the source last and only there, and no faults but lexical ones.
-/

namespace Modula

/-- The symbols that the grammar sees: those of the source without comments and pragmas. -/
def Tokenized.semantic (t : Tokenized) : List Symbol := t.symbols.filter (!·.token.isTrivia)

/-- Of the symbols that the grammar sees, those in front of the end of the source. -/
def Tokenized.words (t : Tokenized) : List Symbol := t.semantic.takeWhile (·.token ≠ .endOfFile)

/-- The symbols from the next one on. -/
def Progress.rest (p : Progress) : List Symbol := p.lookahead :: p.ahead.map Item.symbol

/-! ## The stream of symbols -/

namespace Scanned

/-- What can be relied on about the symbols in front of the end of the source. -/
structure Faithful (s : Scanned) : Prop where
  token_ne : s.symbol.token ≠ .endOfFile
  lexical : OnlyLexical s.reports
  malformed : s.symbol.token.isMalformed = true → s.reports ≠ []

/-- A stream is closed by the end of the source, which is read only once. -/
structure EndsIn (e : Symbol) (stream : List Scanned) : Prop where
  token_eq : e.token = .endOfFile
  parts : ∃ init reports, stream = init ++ [⟨e, reports⟩] ∧ OnlyLexical reports ∧
    ∀ s ∈ init, s.Faithful

theorem endsIn_delay {e : Symbol} {stream : List Scanned} (h : EndsIn e stream)
    {reports : List Diagnostic} (hr : OnlyLexical reports) : EndsIn e (delay reports stream) := by
  obtain ⟨ht, init, last, rfl, hlast, hinit⟩ := h
  refine ⟨ht, ?_⟩
  cases init with
  | nil => exact ⟨[], reports ++ last, rfl, hr.append hlast, by simp⟩
  | cons s init =>
    obtain ⟨hs, hinit⟩ := List.forall_mem_cons.1 hinit
    refine ⟨{ s with reports := reports ++ s.reports } :: init, last, rfl, hlast, ?_⟩
    refine List.forall_mem_cons.2 ⟨⟨hs.token_ne, hr.append hs.lexical, fun hm => ?_⟩, hinit⟩
    exact fun hn => hs.malformed hm (List.append_eq_nil_iff.1 hn).2

theorem endsIn_consChunk {o : LexicalOptions} {k : Chunk} (hk : k.Faithful) {e : Symbol}
    {stream : List Scanned} (h : EndsIn e stream) : EndsIn e (consChunk o k stream) := by
  unfold consChunk
  split
  · next t ht =>
    obtain ⟨hkt, -⟩ := Option.filter_eq_some_iff.1 ht
    obtain ⟨he, init, last, rfl, hlast, hinit⟩ := h
    refine ⟨he, ⟨⟨t, String.ofList k.text, k.position⟩, k.reports⟩ :: init, last, rfl, hlast, ?_⟩
    refine List.forall_mem_cons.2 ⟨⟨?_, hk.lexical, hk.malformed t hkt⟩, hinit⟩
    rintro rfl
    exact hk.token_ne hkt
  · exact endsIn_delay h hk.lexical

theorem endsIn_stream (o : LexicalOptions) (text : String) :
    EndsIn (endOf text.toList).symbol (stream o text) := by
  have hcut : ∀ k ∈ Chunk.cut o .start text.toList, k.Faithful :=
    fun k hk => Chunk.faithful_of_mem_cut hk
  unfold stream
  generalize Chunk.cut o .start text.toList = chunks at hcut ⊢
  induction chunks with
  | nil => exact ⟨rfl, [], [], rfl, .nil, by simp⟩
  | cons k ks ih =>
    obtain ⟨hk, hks⟩ := List.forall_mem_cons.1 hcut
    exact endsIn_consChunk hk (ih hks)

end Scanned

/-! ## The items of a stream -/

namespace Item

/-- The symbols of an item, those that were put aside first. -/
def row (i : Item) : List Symbol := i.trivia ++ [i.symbol]

/-- What the items of a stream keep of it, and what they put aside. -/
structure Keeps (stream : List Scanned) (items : List Item) : Prop where
  ne_nil : items ≠ []
  symbols : items.map Item.symbol = (stream.map Scanned.symbol).filter (!·.token.isTrivia)
  rows : items.flatMap row = stream.map Scanned.symbol
  reports : items.flatMap Item.reports = stream.flatMap Scanned.reports

theorem keeps_consScanned {stream : List Scanned} {items : List Item} (h : Keeps stream items)
    (s : Scanned) : Keeps (s :: stream) (consScanned s items) := by
  obtain ⟨hne, hsym, hrows, hrep⟩ := h
  unfold consScanned
  by_cases ht : s.symbol.token.isTrivia = true
  · rw [if_pos ht]
    cases items with
    | nil => exact absurd rfl hne
    | cons i items =>
      refine ⟨List.cons_ne_nil _ _, ?_, ?_, ?_⟩
      · simpa [ht] using hsym
      · simpa [row] using hrows
      · simpa using hrep
  · rw [if_neg ht]
    refine ⟨List.cons_ne_nil _ _, ?_, ?_, ?_⟩
    · simpa [ht] using hsym
    · simpa [row] using hrows
    · simpa using hrep

theorem keeps_ofStream {e : Symbol} {stream : List Scanned} (h : Scanned.EndsIn e stream) :
    Keeps stream (ofStream stream) := by
  obtain ⟨ht, init, last, rfl, -, -⟩ := h
  induction init with
  | nil =>
    have he : e.token.isTrivia = false := by rw [ht]; rfl
    refine ⟨?_, ?_, ?_, ?_⟩ <;> simp [ofStream, consScanned, he, row]
  | cons s init ih => exact keeps_consScanned ih s

end Item

/-! ## The start -/

theorem lexemes_append (before behind : List Symbol) :
    lexemes (before ++ behind) = lexemes before ++ lexemes behind :=
  List.filterMap_append

namespace Progress

theorem rest_start {items : List Item} (h : items ≠ []) :
    (start items).rest = items.map Item.symbol := by
  cases items with
  | nil => exact absurd rfl h
  | cons i items => rfl

/-- A progress is closed where the end of the source is the last symbol left, and only that. -/
theorem closed_of_rest_eq {p : Progress} {init : List Symbol} {e : Symbol}
    (h : p.rest = init ++ [e]) (he : e.token = .endOfFile)
    (hinit : ∀ s ∈ init, s.token ≠ .endOfFile) : p.Closed := by
  have hall : ∀ (s : Symbol) (ahead : List Item), s :: ahead.map Item.symbol = init ++ [e] →
      EndsAfter s ahead := by
    clear h
    induction init with
    | nil =>
      intro s ahead h
      obtain ⟨rfl, hnil⟩ := List.cons.inj h
      rw [List.map_eq_nil_iff.1 hnil]
      exact he
    | cons t init ih =>
      obtain ⟨ht, hlater⟩ := List.forall_mem_cons.1 hinit
      intro s ahead h
      obtain ⟨rfl, hrest⟩ := List.cons.inj h
      cases ahead with
      | nil => exact absurd hrest.symm (by simp)
      | cons i ahead => exact ⟨ht, ih hlater i.symbol ahead hrest⟩
  exact hall p.lookahead p.ahead h

/-- Consuming a symbol takes it from the symbols left. -/
theorem Closed.rest_eq_cons {p : Progress} (h : p.Closed)
    (ht : p.lookahead.token ≠ .endOfFile) :
    p.rest = p.lookahead :: p.advance.rest := by
  unfold rest Progress.advance
  cases hp : p.ahead with
  | nil => exact absurd (h.ahead_eq_nil_iff.1 hp) ht
  | cons i ahead => rfl

/-- The faults recorded so far and those that come with the symbols ahead. -/
def foreseen (p : Progress) : List Diagnostic :=
  p.queue.toList ++ p.ahead.flatMap Item.reports

theorem foreseen_start {items : List Item} (h : items ≠ []) :
    (start items).foreseen = items.flatMap Item.reports := by
  cases items with
  | nil => exact absurd rfl h
  | cons i items =>
    simp only [start, view, foreseen, Queue.toList_append, List.flatMap_cons]
    rfl

/-- What comes into view was foreseen. -/
@[simp]
theorem foreseen_advance (p : Progress) : p.advance.foreseen = p.foreseen := by
  unfold advance
  split
  · rfl
  · next i ahead hp =>
    rw [foreseen, foreseen, hp, view, Queue.toList_append, List.flatMap_cons, List.append_assoc]

/-- The table as it will be when the symbols ahead have come into view. -/
def foreseenTable (p : Progress) : Interner :=
  p.table.internAll (lexemes (p.ahead.flatMap Item.row))

theorem foreseenTable_view (p : Progress) (i : Item) (ahead : List Item) :
    (p.view i ahead).foreseenTable =
      p.table.internAll (lexemes ((i :: ahead).flatMap Item.row)) := by
  rw [List.flatMap_cons, lexemes_append, Interner.internAll_append]
  rfl

theorem foreseenTable_start {items : List Item} (h : items ≠ []) :
    (start items).foreseenTable = Interner.new.internAll (lexemes (items.flatMap Item.row)) := by
  cases items with
  | nil => exact absurd rfl h
  | cons i items => exact foreseenTable_view _ i items

@[simp]
theorem foreseenTable_advance (p : Progress) : p.advance.foreseenTable = p.foreseenTable := by
  unfold advance
  split
  · rfl
  · next i ahead hp => rw [foreseenTable_view, foreseenTable, hp]

/-- However far reading gets, the table will be the same in the end. -/
theorem Steps.foreseenTable_eq {p q : Progress} (h : p.Steps q) :
    q.foreseenTable = p.foreseenTable := by
  refine h.invariant (motive := fun r => r.foreseenTable = p.foreseenTable) ?_ rfl
  intro r s hrs hr
  cases hrs with
  | advance => rw [foreseenTable_advance, hr]
  | report => exact hr
  | count => exact hr

end Progress

/-- The start of a unit. -/
def startOfUnit (o : LexicalOptions) (text : String) : Progress :=
  .start (Item.ofStream (Scanned.stream o text))

section

variable (o : LexicalOptions) (text : String)

theorem keeps_items :
    Item.Keeps (Scanned.stream o text) (Item.ofStream (Scanned.stream o text)) :=
  Item.keeps_ofStream (Scanned.endsIn_stream o text)

/-- In front of the grammar is what the source holds. -/
theorem rest_startOfUnit : (startOfUnit o text).rest = (tokenize o text).semantic := by
  rw [startOfUnit, Progress.rest_start (keeps_items o text).ne_nil, (keeps_items o text).symbols]
  rfl

theorem foreseen_startOfUnit :
    (startOfUnit o text).foreseen = (tokenize o text).reports := by
  rw [startOfUnit, Progress.foreseen_start (keeps_items o text).ne_nil,
    (keeps_items o text).reports]
  rfl

theorem foreseenTable_startOfUnit :
    (startOfUnit o text).foreseenTable = (tokenize o text).table := by
  rw [startOfUnit, Progress.foreseenTable_start (keeps_items o text).ne_nil,
    (keeps_items o text).rows]
  rfl

/-- The end of the source is the last symbol that the grammar sees, and no other is. -/
theorem semantic_eq : ∃ init e, (tokenize o text).semantic = init ++ [e] ∧
    e.token = .endOfFile ∧ ∀ s ∈ init, s.token ≠ .endOfFile := by
  obtain ⟨he, init, last, hs, -, hinit⟩ := Scanned.endsIn_stream o text
  refine ⟨(init.map Scanned.symbol).filter (!·.token.isTrivia), _, ?_, he, ?_⟩
  · unfold Tokenized.semantic tokenize
    dsimp only
    rw [hs, List.map_append, List.filter_append]
    have ht : (Scanned.endOf text.toList).symbol.token.isTrivia = false := by rw [he]; rfl
    simp [ht]
  · intro s hmem
    obtain ⟨t, ht, rfl⟩ := List.mem_map.1 (List.mem_filter.1 hmem).1
    exact (hinit t ht).token_ne

/-- In front of the end of the source are the words of the source. -/
theorem semantic_eq_words : ∃ e, (tokenize o text).semantic = (tokenize o text).words ++ [e] ∧
    e.token = .endOfFile := by
  obtain ⟨init, e, hs, he, hinit⟩ := semantic_eq o text
  refine ⟨e, ?_, he⟩
  have hwords : (tokenize o text).words = init := by
    unfold Tokenized.words
    rw [hs, List.takeWhile_append_of_pos (by simpa using hinit),
      List.takeWhile_cons_of_neg (by simpa using he), List.append_nil]
  rw [hwords, hs]

theorem closed_startOfUnit : (startOfUnit o text).Closed := by
  obtain ⟨init, e, hs, he, hinit⟩ := semantic_eq o text
  exact Progress.closed_of_rest_eq ((rest_startOfUnit o text).trans hs) he hinit

/-- The lexical rules report lexical faults only. -/
theorem onlyLexical_reports : OnlyLexical (tokenize o text).reports := by
  obtain ⟨-, init, last, hs, hlast, hinit⟩ := Scanned.endsIn_stream o text
  intro d hd
  obtain ⟨s, hmem, hd⟩ := List.mem_flatMap.1 hd
  rw [hs] at hmem
  rcases List.mem_append.1 hmem with h | h
  · exact (hinit s h).lexical d hd
  · rw [List.mem_singleton.1 h] at hd
    exact hlast d hd

/-- Where nothing is reported, no symbol is malformed. -/
theorem not_malformed_of_reports_eq_nil (h : (tokenize o text).reports = []) :
    ∀ s ∈ (tokenize o text).semantic, s.token.isMalformed = false := by
  obtain ⟨he, init, last, hs, -, hinit⟩ := Scanned.endsIn_stream o text
  intro s hmem
  obtain ⟨t, ht, rfl⟩ := List.mem_map.1 (List.mem_filter.1 hmem).1
  have hnil : t.reports = [] := List.flatMap_eq_nil_iff.1 h t ht
  rw [hs] at ht
  rcases List.mem_append.1 ht with ht | ht
  · cases hm : t.symbol.token.isMalformed with
    | false => rfl
    | true => exact absurd hnil ((hinit t ht).malformed hm)
  · rw [List.mem_singleton.1 ht]
    change (Scanned.endOf text.toList).symbol.token.isMalformed = false
    rw [he]
    rfl

end

end Modula
