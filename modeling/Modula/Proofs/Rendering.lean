import Modula.Proofs.Locality
import Modula.Proofs.Pieces

/-!
# Reading a rendering

A source is rendered by the texts of its symbols, each on lines of its own. The rendering has no
gaps but the line feeds in between, and it is read like the source: the symbols are the same, and
so are the faults found in them.
-/

namespace Modula

/-- The codes of faults that are faults of a symbol. -/
def ownCodes (ds : List Diagnostic) : List Code := (codes ds).filter (!·.isOfGaps)

theorem ownCodes_append (ds es : List Diagnostic) :
    ownCodes (ds ++ es) = ownCodes ds ++ ownCodes es := by
  simp [ownCodes, codes]

theorem codes_append (ds es : List Diagnostic) : codes (ds ++ es) = codes ds ++ codes es :=
  List.map_append

namespace Chunk

variable {o : LexicalOptions} {p : Position} {c : Char} {rest : List Char} {t : Token}

/-! ## A symbol in another place -/

/-- A question mark starts no symbol. -/
theorem read?_questionMark (o : LexicalOptions) (p : Position) (rest : List Char) :
    read? o p '?' rest = none := by
  have hdouble : rest.head?.bind (Special.double? '?') = none := by
    cases rest.head? <;> simp [Special.double?]
  have hspecial : Special.read? '?' rest = none := by
    rw [Special.read?, hdouble]
    rfl
  simpa [read?, LexicalOptions.allowsSeparator] using hspecial

theorem first_of_read? {r : Reading} (hc : isBlank c = false) (h : read? o p c rest = some r) :
    first o p c rest = ofReading p c rest r := by
  have hquestion : c ≠ '?' := by
    rintro rfl
    rw [read?_questionMark] at h
    cases h
  rw [first, hc, if_neg Bool.false_ne_true, if_neg fun hd => hquestion hd.1, h]

/-- A piece that is a symbol was read as one. -/
theorem exists_reading_of_token? (h : (first o p c rest).token? = some t) :
    isBlank c = false ∧
      ∃ r, read? o p c rest = some r ∧ first o p c rest = ofReading p c rest r := by
  have harises := arises_first o p c rest
  generalize first o p c rest = k at harises h ⊢
  cases harises with
  | blanks hc => cases h
  | disabled hc hp hrest => cases h
  | @symbol r hc hr => exact ⟨hc, r, hr, rfl⟩
  | stray hc hr => cases h

/-- Where no comments are left out, a piece without a symbol has no token. -/
theorem token?_of_symbol?_eq_none {k : Chunk} (ho : o.comments = true)
    (h : k.symbol? o = none) : k.token? = none := by
  rw [symbol?, Option.map_eq_none_iff, Scanned.keptToken?, ho] at h
  exact Option.eq_none_iff_forall_ne_some.2 fun t ht => Option.filter_eq_none_iff.1 h t ht rfl

/-- Whether a piece is kept is told by its token. -/
theorem unplaced_symbol? {k k' : Chunk} (htoken : k'.token? = k.token?) (htext : k'.text = k.text) :
    (k'.symbol? o).toList.map (fun s => (s.token, s.text)) =
      (k.symbol? o).toList.map fun s => (s.token, s.text) := by
  unfold symbol? Scanned.keptToken?
  rw [htoken, htext]
  cases k.token?.filter _ <;> rfl

/-- All faults of a piece that is no symbol are faults of a gap. -/
theorem ownCodes_of_token?_eq_none (h : (first o p c rest).token? = none) :
    ownCodes (first o p c rest).reports = [] := by
  have harises := arises_first o p c rest
  generalize first o p c rest = k at harises h ⊢
  cases harises with
  | blanks hc => rfl
  | disabled hc hp hrest =>
    dsimp only [idle]
    unfold Comment.disabled
    split <;> rfl
  | symbol hc hr => cases h
  | stray hc hr => rfl

/-- Of the faults of a piece that is a symbol, those are its own that were found reading it. -/
theorem ownCodes_ofReading {r : Reading} (h : r.Within p (c :: rest)) :
    ownCodes (ofReading p c rest r).reports = codes r.reports := by
  have hown : ownCodes r.reports = codes r.reports := by
    refine List.filter_eq_self.2 fun code hcode => ?_
    obtain ⟨d, hd, rfl⟩ := List.mem_map.1 hcode
    rw [(h.inside d hd).own]
    rfl
  unfold ofReading
  dsimp only
  split
  · rw [ownCodes_append, hown]
    exact List.append_nil _
  · exact hown

/-- A piece that is a symbol is read from its first character and those that follow up to the end of
its text. -/
theorem exists_split_of_token? (h : (first o p c rest).token? = some t) :
    isBlank c = false ∧ ∃ u back r, rest = u ++ back ∧ read? o p c (u ++ back) = some r ∧
      r.token = t ∧ r.length = u.length + 1 ∧ first o p c rest = ofReading p c (u ++ back) r := by
  obtain ⟨hc, r, hr, hfirst⟩ := exists_reading_of_token? h
  obtain ⟨n, hn⟩ := Nat.exists_eq_succ_of_ne_zero (Nat.ne_of_gt r.length_pos)
  have hle : n ≤ rest.length := by
    have := (within_read? hr).length_le
    rw [hn, List.length_cons] at this
    omega
  have htoken : r.token = t := by
    rw [hfirst] at h
    exact Option.some.inj h
  refine ⟨hc, rest.take n, rest.drop n, r, (List.take_append_drop n rest).symm, ?_, htoken, ?_, ?_⟩
  · rw [List.take_append_drop, hr]
  · rw [hn, List.length_take_of_le hle]
  · rw [List.take_append_drop, hfirst]

section

variable {u back : List Char} {r : Reading}

theorem text_ofReading_append (h : r.length = u.length + 1) :
    (ofReading p c (u ++ back) r).text = c :: u := by
  change (c :: (u ++ back)).take r.length = c :: u
  rw [h, List.take_succ_cons, List.take_left]

/-- What is dropped with a symbol is told by the character behind it. -/
theorem dropped_ofReading_append (h : r.length = u.length + 1) :
    (ofReading p c (u ++ back) r).dropped =
      if c.isAlpha && back.head? == some '\x27' then ['\x27'] else [] := by
  unfold ofReading
  dsimp only
  rw [h, List.drop_succ_cons, List.drop_left]

theorem reports_ofReading_append (h : r.length = u.length + 1) :
    (ofReading p c (u ++ back) r).reports =
      if c.isAlpha && back.head? == some '\x27' then
        r.reports ++ [strayReport (p.after (c :: u)) '\x27']
      else r.reports := by
  unfold ofReading
  dsimp only
  rw [h, List.drop_succ_cons, List.drop_left, List.take_succ_cons, List.take_left]

/-- Nothing is dropped with a symbol, unless it is a word in front of an apostrophe. -/
theorem extent_ofReading_append (h : r.length = u.length + 1)
    (hhead : (c.isAlpha && back.head? == some '\x27') = false) :
    (ofReading p c (u ++ back) r).extent = c :: u := by
  rw [extent, text_ofReading_append h, dropped_ofReading_append h, hhead,
    if_neg Bool.false_ne_true, List.append_nil]

end

/-- A symbol is the same wherever it stands, if what comes behind it passes for what came there
before; and if that is no apostrophe behind a word, nothing is dropped with it. -/
theorem first_append_of_token? (h : (first o p c rest).token? = some t) :
    ∃ u back, rest = u ++ back ∧ (first o p c rest).text = c :: u ∧
      ∀ q back', PassesFor back' back → (c.isAlpha = true → back'.head? ≠ some '\x27') →
        (first o q c (u ++ back')).token? = some t ∧
        (first o q c (u ++ back')).text = c :: u ∧ (first o q c (u ++ back')).extent = c :: u ∧
        codes (first o q c (u ++ back')).reports = ownCodes (first o p c rest).reports := by
  obtain ⟨hc, u, back, r, rfl, hr, rfl, hlength, hfirst⟩ := exists_split_of_token? h
  refine ⟨u, back, rfl, by rw [hfirst, text_ofReading_append hlength],
    fun q back' hpasses hhead => ?_⟩
  have hread := outline_read?_append (v := .ofCodes) (q := q) trivial hpasses hr hlength
  obtain ⟨r', hr', houtline⟩ := Option.map_eq_some_iff.1 hread
  have hlength' : r'.length = u.length + 1 := (congrArg (·.2.1) houtline).trans hlength
  have hcodes : codes r'.reports = codes r.reports := congrArg (·.2.2) houtline
  have hnone : (c.isAlpha && back'.head? == some '\x27') = false := by simpa using hhead
  rw [first_of_read? hc hr', hfirst, ownCodes_ofReading (within_read? hr),
    text_ofReading_append hlength', extent_ofReading_append hlength' hnone,
    reports_ofReading_append hlength', hnone, if_neg Bool.false_ne_true]
  exact ⟨congrArg some (congrArg (·.1) houtline), rfl, rfl, hcodes⟩

/-! ## All symbols -/

/-- The symbols of the pieces of a text. -/
def symbols (o : LexicalOptions) (p : Position) (text : List Char) : List Symbol :=
  (cut o p text).filterMap (symbol? o)

/-- The texts of symbols, each on lines of its own. -/
def render (symbols : List Symbol) : List Char :=
  ['\n'].intercalate (symbols.map (·.text.toList))

/-- What symbols are, without their places. -/
def unplaced (symbols : List Symbol) : List (Token × String) :=
  symbols.map fun s => (s.token, s.text)

/-- Between two symbols of a rendering is nothing but the line feed. -/
theorem cut_lineFeed (q : Position) (hc : isBlank c = false) (more : List Char) :
    cut o q ('\n' :: c :: more) = idle q '\n' [] [] :: cut o (q.next '\n') (c :: more) := by
  have hfirst : first o q '\n' (c :: more) = idle q '\n' [] [] := by
    have hrun : (c :: more).takeWhile isBlank = [] := List.takeWhile_cons_of_neg (by simp [hc])
    rw [first, if_pos (show isBlank '\n' = true from rfl), hrun]
  have hextent : '\n' :: c :: more = (first o q '\n' (c :: more)).extent ++ c :: more := by
    rw [hfirst]
    rfl
  rw [cut_of_extent hextent, hfirst]
  rfl

/-- A symbol does not start with a blank. -/
theorem exists_text_of_mem_symbols {text : List Char} {s : Symbol} (h : s ∈ symbols o p text) :
    ∃ c u, s.text.toList = c :: u ∧ isBlank c = false := by
  obtain ⟨k, hk, hs⟩ := List.mem_filterMap.1 h
  obtain ⟨t, ht, rfl⟩ := Option.map_eq_some_iff.1 hs
  obtain ⟨front, c, rest, -, rfl⟩ := exists_first_of_mem_cut hk
  have htoken := (Option.filter_eq_some_iff.1 ht).1
  obtain ⟨u, -, -, htext, -⟩ := first_append_of_token? htoken
  exact ⟨c, u, by rw [String.toList_ofList, htext], (exists_reading_of_token? htoken).1⟩

/-- What is behind the first symbol of a rendering: nothing, or a line feed and the rendering of
the others. -/
def renderBehind : List Symbol → List Char
  | [] => []
  | symbols => '\n' :: render symbols

theorem breaks_renderBehind (symbols : List Symbol) : Breaks (renderBehind symbols) := by
  cases symbols with
  | nil => exact .ended
  | cons s later => exact .line _

/-- Where nothing is behind a symbol, nothing is behind it in a rendering. -/
theorem replaces_renderBehind {k : Chunk} {u back behind : List Char}
    (h : c :: (u ++ back) = k.extent ++ behind) (htext : k.text = c :: u) (q : Position) :
    Replaces (renderBehind (symbols o q behind)) back := by
  rw [extent, htext, List.append_assoc, List.cons_append, List.cons.injEq] at h
  have hback : back = k.dropped ++ behind := List.append_cancel_left h.2
  refine ⟨breaks_renderBehind _, fun hnil => ?_⟩
  rw [hnil] at hback
  rw [(List.append_eq_nil_iff.1 hback.symm).2]
  simp [symbols, renderBehind]

theorem render_cons (s : Symbol) (later : List Symbol) :
    render (s :: later) = s.text.toList ++ renderBehind later := by
  cases later with
  | nil => simp [render, renderBehind]
  | cons t later => simp [render, renderBehind]

/-- In front of the rendering of further symbols is at most a line feed. -/
theorem exists_cut_renderBehind {later : List Symbol}
    (h : ∀ s ∈ later, ∃ c u, s.text.toList = c :: u ∧ isBlank c = false) (q : Position) :
    ∃ q', symbols o q (renderBehind later) = symbols o q' (render later) ∧
      (cut o q (renderBehind later)).flatMap reports =
        (cut o q' (render later)).flatMap reports := by
  cases later with
  | nil => exact ⟨q, rfl, rfl⟩
  | cons s later =>
    obtain ⟨c, u, htext, hc⟩ := h s (List.mem_cons_self ..)
    have hrender : render (s :: later) = c :: (u ++ renderBehind later) := by
      rw [render_cons, htext]
      rfl
    have hbehind : renderBehind (s :: later) = '\n' :: render (s :: later) := rfl
    refine ⟨q.next '\n', ?_, ?_⟩
    · rw [symbols, hbehind, hrender, cut_lineFeed q hc]
      rfl
    · rw [hbehind, hrender, cut_lineFeed q hc]
      rfl

theorem symbols_of_extent {behind : List Char}
    (h : c :: rest = (first o p c rest).extent ++ behind) :
    symbols o p (c :: rest) = ((first o p c rest).symbol? o).toList ++
      symbols o (p.after (first o p c rest).extent) behind :=
  filterMap_cut_of_extent (symbol? o) h

/-- The symbols of a rendering are those of the text, and so are the faults in them, if no comments
are left out. -/
theorem cut_render (o : LexicalOptions) (p : Position) (text : List Char) (q : Position) :
    unplaced (symbols o q (render (symbols o p text))) = unplaced (symbols o p text) ∧
      (o.comments = true → codes ((cut o q (render (symbols o p text))).flatMap reports) =
        ownCodes ((cut o p text).flatMap reports)) := by
  induction p, text using cut_induction o generalizing q with
  | nil p => simp [symbols, render, unplaced, codes, ownCodes]
  | cons p c rest behind htext ih =>
    rw [symbols_of_extent htext, reports_cut_of_extent htext, ownCodes_append]
    cases hk : (first o p c rest).symbol? o with
    | none =>
      obtain ⟨hplaceless, hcodes⟩ := ih q
      refine ⟨hplaceless, fun ho => ?_⟩
      rw [ownCodes_of_token?_eq_none (token?_of_symbol?_eq_none ho hk)]
      exact hcodes ho
    | some s =>
      obtain ⟨t, ht, hs⟩ := Option.map_eq_some_iff.1 hk
      have htoken := (Option.filter_eq_some_iff.1 ht).1
      obtain ⟨u, back, rfl, hu, hagain⟩ := first_append_of_token? htoken
      have hstarts : ∀ s ∈ symbols o (p.after (first o p c (u ++ back)).extent) behind,
          ∃ d v, s.text.toList = d :: v ∧ isBlank d = false :=
        fun s => exists_text_of_mem_symbols
      have hreplaces := replaces_renderBehind (o := o) htext hu
        (p.after (first o p c (u ++ back)).extent)
      obtain ⟨htoken', htext', hextent', hcodes'⟩ :=
        hagain q _ hreplaces.passesFor fun _ => hreplaces.head?_ne
      have hplaceless := unplaced_symbol? (o := o) (htoken'.trans htoken.symm)
        (htext'.trans hu.symm)
      rw [hk] at hplaceless
      generalize symbols o (p.after (first o p c (u ++ back)).extent) behind = later at *
      have hrender : render ((some s).toList ++ later) = c :: (u ++ renderBehind later) := by
        rw [Option.toList_some, List.singleton_append, render_cons, ← hs, String.toList_ofList, hu]
        rfl
      have hsplit : c :: (u ++ renderBehind later) =
          (first o q c (u ++ renderBehind later)).extent ++ renderBehind later := by
        rw [hextent']
        rfl
      obtain ⟨q', hsymbols, hreports⟩ := exists_cut_renderBehind (o := o) hstarts
        (q.after (first o q c (u ++ renderBehind later)).extent)
      rw [hrender, symbols_of_extent hsplit, reports_cut_of_extent hsplit, hsymbols, hreports,
        codes_append, hcodes', unplaced, List.map_append, hplaceless, unplaced, List.map_append]
      exact ⟨congrArg _ (ih q').1, fun ho => congrArg _ ((ih q').2 ho)⟩

end Chunk

namespace Tokenized

/-- The symbols of a source in front of its end. -/
def inner (t : Tokenized) : List Symbol := t.symbols.filter (·.token ≠ .endOfFile)

/-- Symbols of a source, each as its token and its text. -/
def readings (t : Tokenized) (symbols : List Symbol) : List (Token × String) :=
  symbols.map fun s => (s.token, t.text s)

/-- The texts of the symbols in front of the end, with a line feed between neighbours. -/
def rendering (t : Tokenized) : String := "\n".intercalate (t.inner.map t.text)

end Tokenized

section

variable (o : LexicalOptions) (source : String)

theorem readings_symbolsOf :
    (tokenize o source).readings (symbolsOf o source) = Chunk.unplaced (symbolsOf o source) :=
  List.map_congr_left fun s hs => by rw [text_tokenize hs]

theorem readings_symbols :
    (tokenize o source).readings (tokenize o source).symbols =
      Chunk.unplaced (symbolsOf o source) ++ [(.endOfFile, "")] := by
  rw [Tokenized.readings, symbols_tokenize, List.map_append, List.map_singleton,
    text_of_not_hasLexeme rfl]
  exact congrArg (· ++ [(Token.endOfFile, "")]) (readings_symbolsOf o source)

theorem toList_rendering :
    (tokenize o source).rendering.toList = Chunk.render (symbolsOf o source) := by
  have htexts : (symbolsOf o source).map (String.toList ∘ (tokenize o source).text) =
      (symbolsOf o source).map (·.text.toList) :=
    List.map_congr_left fun s hs => congrArg String.toList (text_tokenize hs)
  rw [Tokenized.rendering, Tokenized.inner, filter_symbols_tokenize, String.toList_intercalate,
    List.map_map, htexts]
  rfl

/-- Reading is stable: the rendering of a source has the symbols of the source with their texts, and
then it is over. If comments are symbols, it also has the faults of the source, without those of
stray characters and of disabled code. -/
theorem tokenize_rendering :
    (tokenize o (tokenize o source).rendering).readings
        (tokenize o (tokenize o source).rendering).symbols =
      (tokenize o source).readings (tokenize o source).inner ++ [(.endOfFile, "")] ∧
      (o.comments = true →
        (tokenize o (tokenize o source).rendering).reports.map Diagnostic.code =
          ((tokenize o source).reports.map Diagnostic.code).filter (!·.isOfGaps)) := by
  obtain ⟨hsymbols, hcodes⟩ := Chunk.cut_render o .start source.toList .start
  have hrendering := toList_rendering o source
  rw [symbolsOf, piecesOf, ← Chunk.symbols] at hrendering
  rw [readings_symbols, Tokenized.inner, filter_symbols_tokenize, readings_symbolsOf,
    reports_tokenize, reports_tokenize, symbolsOf, symbolsOf, piecesOf, piecesOf, hrendering]
  exact ⟨congrArg (· ++ [(Token.endOfFile, "")]) hsymbols, hcodes⟩

end

end Modula
