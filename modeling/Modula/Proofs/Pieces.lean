import Modula.Lexical.Scanner
import Modula.Proofs.Lexemes
import Modula.Proofs.Texts

/-!
# The pieces of a source

The symbols of a source and its lexical faults are those of its pieces. Each piece was cut from the
source where it stands, in front of everything behind it; so what is said of the first piece of a
text holds for all pieces.
-/

namespace Modula

/-! ## The order of positions -/

namespace Position

/-- One position comes before another, by its offset as well as by its line and column. -/
structure Before (p q : Position) : Prop where
  offset : p.offset < q.offset
  place : p.line < q.line ∨ p.line = q.line ∧ p.column < q.column

theorem Before.trans {p q r : Position} (h : p.Before q) (h' : q.Before r) : p.Before r := by
  obtain ⟨ho, hp⟩ := h
  obtain ⟨ho', hp'⟩ := h'
  exact ⟨by omega, by omega⟩

theorem before_next (p : Position) (c : Char) : p.Before (p.next c) := by
  have hc := c.utf8Size_pos
  unfold next
  split
  · exact ⟨Nat.lt_succ_self _, .inl (Nat.lt_succ_self _)⟩
  · exact ⟨Nat.lt_add_of_pos_right hc, .inr ⟨rfl, Nat.lt_add_of_pos_right hc⟩⟩

theorem before_after (p : Position) {cs : List Char} (h : cs ≠ []) : p.Before (p.after cs) := by
  induction cs generalizing p with
  | nil => exact absurd rfl h
  | cons c cs ih =>
    rw [after_cons]
    cases cs with
    | nil => exact before_next p c
    | cons d cs => exact (before_next p c).trans (ih _ (List.cons_ne_nil _ _))

/-- Of the starts of a text, only one ends at an offset. -/
theorem eq_of_offset_eq {p : Position} {a b text : List Char} (ha : a <+: text) (hb : b <+: text)
    (h : (p.after a).offset = (p.after b).offset) : a = b := by
  have heq {a b : List Char} (hab : a <+: b) (h : (p.after a).offset = (p.after b).offset) :
      a = b := by
    obtain ⟨d, rfl⟩ := hab
    cases d with
    | nil => exact (List.append_nil a).symm
    | cons c d =>
      have hlt := ((p.after a).before_after (List.cons_ne_nil c d)).offset
      rw [← after_append, h] at hlt
      exact absurd hlt (Nat.lt_irrefl _)
  rcases List.prefix_or_prefix_of_prefix ha hb with hab | hba
  · exact heq hab h
  · exact (heq hba h.symm).symm

end Position

namespace Chunk

variable {o : LexicalOptions} {p : Position} {c : Char} {rest cs text : List Char} {k : Chunk}

/-! ## One piece -/

/-- What the first piece of a text is that starts with `c`. -/
inductive Arises (o : LexicalOptions) (p : Position) (c : Char) (rest : List Char) : Chunk → Prop
  | blanks (hc : isBlank c = true) : Arises o p c rest (idle p c (rest.takeWhile isBlank) [])
  | disabled (hc : c = '?') (hp : p.column = 1) (hrest : rest.head? = some '<') :
    Arises o p c rest (idle p c (rest.take ((Comment.disabled p (c :: rest)).length - 1))
      (Comment.disabled p (c :: rest)).reports)
  | symbol {r : Reading} (hc : isBlank c = false) (hr : read? o p c rest = some r) :
    Arises o p c rest (ofReading p c rest r)
  | stray (hc : isBlank c = false) (hr : read? o p c rest = none) :
    Arises o p c rest (idle p c [] [strayReport p c])

theorem arises_first (o : LexicalOptions) (p : Position) (c : Char) (rest : List Char) :
    Arises o p c rest (first o p c rest) := by
  unfold first
  split
  · next hc => exact .blanks hc
  · next hc =>
    have hc := Bool.eq_false_iff.2 hc
    split
    · next h => exact .disabled h.1 h.2.1 h.2.2
    · split
      · next r hr => exact .symbol hc hr
      · next hr => exact .stray hc hr

/-- What a fault of a piece is about: disabled code without an end, the symbol, the apostrophe that
is dropped with a word, or the character that starts no symbol. -/
inductive Faults (o : LexicalOptions) (p : Position) (c : Char) (rest : List Char) :
    Diagnostic → Prop
  | unended (hc : c = '?') (hp : p.column = 1) (hrest : rest.head? = some '<')
    (hn : Comment.disabledExtent? 0 (c :: rest) = none) :
    Faults o p c rest (.ofPosition .unterminatedDisabled p)
  | symbol {r : Reading} {d : Diagnostic} (hr : read? o p c rest = some r) (hd : d ∈ r.reports)
    (hown : d.code.isOfGaps = false) : Faults o p c rest d
  | apostrophe (q : Position) : Faults o p c rest (strayReport q '\x27')
  | stray (hr : read? o p c rest = none) : Faults o p c rest (strayReport p c)

theorem faults_of_mem {d : Diagnostic} (h : d ∈ (first o p c rest).reports) :
    Faults o p c rest d := by
  have harises := arises_first o p c rest
  generalize first o p c rest = k at harises h
  cases harises with
  | blanks hc => cases h
  | disabled hc hp hrest =>
    dsimp only [idle] at h
    unfold Comment.disabled at h
    split at h
    · cases h
    · next hn =>
      rw [List.mem_singleton.1 h]
      exact .unended hc hp hrest hn
  | @symbol r hc hr =>
    have hsymbol (hd : d ∈ r.reports) : Faults o p c rest d :=
      .symbol hr hd ((within_read? hr).inside d hd).own
    unfold ofReading at h
    dsimp only at h
    split at h
    · rcases List.mem_append.1 h with h | h
      · exact hsymbol h
      · rw [List.mem_singleton.1 h]
        exact .apostrophe _
    · exact hsymbol h
  | stray hc hr =>
    rw [List.mem_singleton.1 h]
    exact .stray hr

/-- A piece at the start of a text: where it stands, what its token says of its characters, and
where its faults were found. -/
structure Within (p : Position) (cs : List Char) (k : Chunk) : Prop where
  position_eq : k.position = p
  text_le : k.text <+: cs
  spells : ∀ t, k.token? = some t → t.Spells k.text
  place : ∀ d ∈ k.reports, ∃ u, u <+: cs ∧ d.IsAt (p.after u)

theorem within_idle {behind : List Char} {reports : List Diagnostic} (h : behind <+: rest)
    (hr : ∀ d ∈ reports, d.IsAt p) : (idle p c behind reports).Within p (c :: rest) :=
  ⟨rfl, List.cons_prefix_cons.2 ⟨rfl, h⟩, fun t ht => (by cases ht),
    fun d hd => ⟨[], List.nil_prefix, hr d hd⟩⟩

theorem within_ofReading {r : Reading} (h : r.Within p (c :: rest)) :
    (ofReading p c rest r).Within p (c :: rest) := by
  have htext : (ofReading p c rest r).text = (c :: rest).take r.length := rfl
  refine ⟨rfl, htext ▸ List.take_prefix _ _, fun t ht => ?_, ?_⟩
  · obtain rfl := Option.some.inj ht
    exact h.spells
  · have hown : ∀ d ∈ r.reports, ∃ u, u <+: c :: rest ∧ d.IsAt (p.after u) :=
      fun d hd => (h.inside d hd).place
    unfold ofReading
    dsimp only
    split
    · intro d hd
      rcases List.mem_append.1 hd with hd | hd
      · exact hown d hd
      · rw [List.mem_singleton.1 hd]
        exact ⟨_, List.take_prefix _ _, rfl, rfl⟩
    · exact hown

theorem within_first (o : LexicalOptions) (p : Position) (c : Char) (rest : List Char) :
    (first o p c rest).Within p (c :: rest) := by
  have h := arises_first o p c rest
  generalize first o p c rest = k at h
  cases h with
  | blanks hc => exact within_idle (List.takeWhile_prefix _) fun d hd => (by cases hd)
  | disabled hc hp hrest =>
    refine within_idle (List.take_prefix _ _) fun d hd => ?_
    unfold Comment.disabled at hd
    split at hd
    · cases hd
    · rw [List.mem_singleton.1 hd]
      exact Diagnostic.isAt_ofPosition _ _
  | symbol hc hr => exact within_ofReading (within_read? hr)
  | stray hc hr =>
    refine within_idle List.nil_prefix fun d hd => ?_
    rw [List.mem_singleton.1 hd]
    exact ⟨rfl, rfl⟩

/-! ## All pieces -/

theorem cut_of_extent {behind : List Char} (h : c :: rest = (first o p c rest).extent ++ behind) :
    cut o p (c :: rest) =
      first o p c rest :: cut o (p.after (first o p c rest).extent) behind := by
  have hdrop : (c :: rest).drop (first o p c rest).extent.length = behind := by
    generalize (first o p c rest).extent = extent at h ⊢
    rw [h, List.drop_left]
  rw [cut_cons, hdrop]

theorem filterMap_cut_of_extent {β : Type} (f : Chunk → Option β) {behind : List Char}
    (h : c :: rest = (first o p c rest).extent ++ behind) :
    (cut o p (c :: rest)).filterMap f = (f (first o p c rest)).toList ++
      (cut o (p.after (first o p c rest).extent) behind).filterMap f := by
  rw [cut_of_extent h, List.filterMap_cons]
  cases f (first o p c rest) <;> rfl

theorem reports_cut_of_extent {behind : List Char}
    (h : c :: rest = (first o p c rest).extent ++ behind) :
    (cut o p (c :: rest)).flatMap reports = (first o p c rest).reports ++
      (cut o (p.after (first o p c rest).extent) behind).flatMap reports := by
  rw [cut_of_extent h, List.flatMap_cons]

/-- What holds of a text without characters, and of a text if it holds of what is behind its first
piece, holds of every text. -/
theorem cut_induction {motive : Position → List Char → Prop} (o : LexicalOptions)
    (nil : ∀ p, motive p [])
    (cons : ∀ p c rest behind, c :: rest = (first o p c rest).extent ++ behind →
      motive (p.after (first o p c rest).extent) behind → motive p (c :: rest))
    (p : Position) (text : List Char) : motive p text := by
  match text with
  | [] => exact nil p
  | c :: rest =>
    obtain ⟨behind, h⟩ := extent_first_prefix o p c rest
    exact cons p c rest behind h.symm (cut_induction o nil cons _ behind)
termination_by text.length
decreasing_by
  have := List.length_pos_iff.2 (first o p c rest).extent_ne_nil
  rw [← h, List.length_append]
  omega

/-- Every piece is the first one of the text behind the pieces in front of it. -/
theorem exists_first_of_mem_cut (h : k ∈ cut o p text) :
    ∃ front c rest, text = front ++ c :: rest ∧ k = first o (p.after front) c rest := by
  induction p, text using cut_induction o with
  | nil p => simp at h
  | cons p c rest behind htext ih =>
    rw [cut_of_extent htext] at h
    rcases List.mem_cons.1 h with rfl | h
    · exact ⟨[], c, rest, rfl, rfl⟩
    · obtain ⟨front, d, later, rfl, hk⟩ := ih h
      refine ⟨(first o p c rest).extent ++ front, d, later, ?_, ?_⟩
      · rw [List.append_assoc]
        exact htext
      · rw [Position.after_append]
        exact hk

/-- Every piece has pieces in front of it and, if there is more text, pieces behind it. -/
theorem exists_cut_of_mem_cut (h : k ∈ cut o p text) :
    ∃ before front c rest behind, text = front ++ c :: rest ∧ k = first o (p.after front) c rest ∧
      c :: rest = k.extent ++ behind ∧
      cut o p text = before ++ k :: cut o ((p.after front).after k.extent) behind := by
  induction p, text using cut_induction o with
  | nil p => simp at h
  | cons p c rest behind htext ih =>
    have hcut := cut_of_extent htext
    rw [hcut] at h
    rcases List.mem_cons.1 h with rfl | h
    · exact ⟨[], [], c, rest, behind, rfl, rfl, htext, hcut⟩
    · obtain ⟨before, front, d, later, back, rfl, hk, hlater, hbehind⟩ := ih h
      refine ⟨first o p c rest :: before, (first o p c rest).extent ++ front, d, later, back, ?_,
        ?_, hlater, ?_⟩
      · rw [List.append_assoc]
        exact htext
      · rw [Position.after_append]
        exact hk
      · rw [hcut, hbehind, Position.after_append, List.cons_append]

/-- One piece stands behind another. -/
def IsBehind (l k : Chunk) : Prop := ∃ gap, l.position = k.position.after (k.text ++ gap)

theorem pairwise_cut (o : LexicalOptions) (p : Position) (text : List Char) :
    (cut o p text).Pairwise fun k l => l.IsBehind k := by
  induction p, text using cut_induction o with
  | nil p => simp
  | cons p c rest behind htext ih =>
    rw [cut_of_extent htext, List.pairwise_cons]
    refine ⟨fun l hl => ?_, ih⟩
    obtain ⟨front, d, later, -, rfl⟩ := exists_first_of_mem_cut hl
    refine ⟨(first o p c rest).dropped ++ front, ?_⟩
    rw [(within_first o _ d later).position_eq, (within_first o p c rest).position_eq,
      ← List.append_assoc, Position.after_append _ _ front]
    rfl

/-! ## The symbols and faults of pieces -/

/-- The symbol that a piece is, if the stream keeps it. -/
def symbol? (o : LexicalOptions) (k : Chunk) : Option Symbol :=
  (Scanned.keptToken? o k).map (⟨·, String.ofList k.text, k.position⟩)

theorem symbol?_eq_filter (o : LexicalOptions) (k : Chunk) :
    k.symbol? o = k.asSymbol?.filter fun s => o.comments || !s.token.isComment := by
  unfold symbol? asSymbol? Scanned.keptToken?
  cases k.token? with
  | none => rfl
  | some t =>
    simp only [Option.filter_some, Option.map_some]
    split <;> rfl

end Chunk

namespace Scanned

variable (o : LexicalOptions) (k : Chunk)

theorem map_symbol_delay (reports : List Diagnostic) (stream : List Scanned) :
    (delay reports stream).map symbol = stream.map symbol := by
  cases stream <;> rfl

theorem map_symbol_consChunk (stream : List Scanned) :
    (consChunk o k stream).map symbol = (k.symbol? o).toList ++ stream.map symbol := by
  unfold consChunk Chunk.symbol?
  cases keptToken? o k with
  | none => exact map_symbol_delay _ _
  | some t => rfl

theorem consChunk_ne_nil {stream : List Scanned} (h : stream ≠ []) :
    consChunk o k stream ≠ [] := by
  obtain ⟨s, later, rfl⟩ := List.exists_cons_of_ne_nil h
  unfold consChunk
  split <;> exact List.cons_ne_nil _ _

theorem flatMap_reports_consChunk {stream : List Scanned} (h : stream ≠ []) :
    (consChunk o k stream).flatMap reports = k.reports ++ stream.flatMap reports := by
  obtain ⟨s, later, rfl⟩ := List.exists_cons_of_ne_nil h
  unfold consChunk
  cases keptToken? o k with
  | none => simp [delay]
  | some t => rfl

/-- A stream of pieces has the symbols and the faults of the pieces. -/
theorem foldr_consChunk (chunks : List Chunk) (e : Scanned) :
    (chunks.foldr (consChunk o) [e]).map symbol =
        chunks.filterMap (Chunk.symbol? o) ++ [e.symbol] ∧
      (chunks.foldr (consChunk o) [e]).flatMap reports =
        chunks.flatMap Chunk.reports ++ e.reports ∧
      chunks.foldr (consChunk o) [e] ≠ [] := by
  induction chunks with
  | nil => simp
  | cons k chunks ih =>
    obtain ⟨hsymbols, hreports, hne⟩ := ih
    rw [List.foldr_cons, map_symbol_consChunk, hsymbols, flatMap_reports_consChunk o k hne,
      hreports, List.filterMap_cons, List.flatMap_cons, List.append_assoc]
    refine ⟨?_, rfl, consChunk_ne_nil o k hne⟩
    cases k.symbol? o <;> rfl

end Scanned

section

variable (o : LexicalOptions) (source : String)

/-- The pieces of a source. -/
def piecesOf : List Chunk := Chunk.cut o .start source.toList

/-- The symbols of a source in front of its end, comments included. -/
def allSymbolsOf : List Symbol := (piecesOf o source).filterMap Chunk.asSymbol?

/-- The symbols of a source in front of its end. -/
def symbolsOf : List Symbol := (piecesOf o source).filterMap (Chunk.symbol? o)

theorem symbolsOf_eq_filter : symbolsOf o source =
    (allSymbolsOf o source).filter fun s => o.comments || !s.token.isComment := by
  rw [symbolsOf, allSymbolsOf, List.filter_filterMap]
  exact congrArg (List.filterMap · _) (funext (Chunk.symbol?_eq_filter o))

/-- The symbols of a source are those of its pieces, and then its end. -/
theorem symbols_tokenize : (tokenize o source).symbols =
    symbolsOf o source ++ [⟨.endOfFile, "", Position.start.after source.toList⟩] :=
  (Scanned.foldr_consChunk o (piecesOf o source) (Scanned.endOf source.toList)).1

/-- The faults of a source are those of its pieces. -/
theorem reports_tokenize :
    (tokenize o source).reports = (piecesOf o source).flatMap Chunk.reports :=
  (Scanned.foldr_consChunk o (piecesOf o source) (Scanned.endOf source.toList)).2.1.trans
    (List.append_nil _)

end

section

variable {o : LexicalOptions} {source : String} {s : Symbol} {k : Chunk}

/-- A piece was cut from the source where it stands. -/
theorem exists_first_of_mem_piecesOf (h : k ∈ piecesOf o source) :
    ∃ front c rest, source.toList = front ++ c :: rest ∧
      k = Chunk.first o (Position.start.after front) c rest :=
  Chunk.exists_first_of_mem_cut h

/-- A symbol in front of the end has a place in the source and characters there, which its token
may settle. -/
structure Symbol.Stands (source : String) (s : Symbol) : Prop where
  token_ne : s.token ≠ .endOfFile
  text_ne : s.text ≠ ""
  spells : s.token.Spells s.text.toList
  place : ∃ front back, source.toList = front ++ s.text.toList ++ back ∧
    s.position = Position.start.after front

theorem stands_of_mem_allSymbolsOf (h : s ∈ allSymbolsOf o source) : s.Stands source := by
  obtain ⟨k, hk, hs⟩ := List.mem_filterMap.1 h
  obtain ⟨t, ht, rfl⟩ := Option.map_eq_some_iff.1 hs
  have hfaithful := Chunk.faithful_of_mem_cut hk
  obtain ⟨front, c, rest, hsource, rfl⟩ := exists_first_of_mem_piecesOf hk
  have hwithin := Chunk.within_first o (Position.start.after front) c rest
  obtain ⟨back, hback⟩ := hwithin.text_le
  refine ⟨?_, ?_, ?_, front, back, ?_, hwithin.position_eq⟩
  · rintro rfl
    exact hfaithful.token_ne ht
  · simpa using (Chunk.first o _ c rest).text_ne_nil
  · rw [String.toList_ofList]
    exact hwithin.spells t ht
  · rw [String.toList_ofList, hsource, List.append_assoc, hback]

theorem mem_allSymbolsOf (h : s ∈ symbolsOf o source) : s ∈ allSymbolsOf o source := by
  rw [symbolsOf_eq_filter] at h
  exact (List.mem_filter.1 h).1

theorem stands_of_mem_symbolsOf (h : s ∈ symbolsOf o source) : s.Stands source :=
  stands_of_mem_allSymbolsOf (mem_allSymbolsOf h)

/-- The symbols in front of the end are all symbols but the end. -/
theorem filter_symbols_tokenize (o : LexicalOptions) (source : String) :
    (tokenize o source).symbols.filter (·.token ≠ .endOfFile) = symbolsOf o source := by
  rw [symbols_tokenize, List.filter_append, List.filter_eq_self.2]
  · simp
  · intro s hs
    simpa using (stands_of_mem_symbolsOf hs).token_ne

theorem mem_symbolsOf_of_ne (h : s ∈ (tokenize o source).symbols) (ht : s.token ≠ .endOfFile) :
    s ∈ symbolsOf o source := by
  rw [← filter_symbols_tokenize]
  exact List.mem_filter.2 ⟨h, by simpa using ht⟩

/-- The text that the table or the token gives a symbol is what stands in the source. -/
theorem text_tokenize (h : s ∈ symbolsOf o source) : (tokenize o source).text s = s.text := by
  have hspells := (stands_of_mem_symbolsOf h).spells
  cases hlex : s.token.hasLexeme with
  | true =>
    refine text_of_hasLexeme ?_ hlex
    rw [symbols_tokenize]
    exact List.mem_append_left _ h
  | false =>
    rcases hspells with hs | hs
    · rw [hlex] at hs
      cases hs
    · rw [text_of_not_hasLexeme hlex, hs, Option.getD_some, String.ofList_toList]

/-- One symbol stands behind another. -/
def Symbol.IsBehind (t s : Symbol) : Prop :=
  ∃ gap, t.position = s.position.after (s.text.toList ++ gap)

theorem pairwise_allSymbolsOf (o : LexicalOptions) (source : String) :
    (allSymbolsOf o source).Pairwise fun s t => t.IsBehind s := by
  rw [allSymbolsOf, List.pairwise_filterMap]
  refine (Chunk.pairwise_cut o .start source.toList).imp ?_
  rintro k l ⟨gap, hgap⟩ s hs t ht
  obtain ⟨-, -, rfl⟩ := Option.map_eq_some_iff.1 hs
  obtain ⟨-, -, rfl⟩ := Option.map_eq_some_iff.1 ht
  refine ⟨gap, ?_⟩
  rw [String.toList_ofList]
  exact hgap

theorem pairwise_symbolsOf (o : LexicalOptions) (source : String) :
    (symbolsOf o source).Pairwise fun s t => t.IsBehind s := by
  rw [symbolsOf_eq_filter]
  exact (pairwise_allSymbolsOf o source).filter _

end

end Modula
