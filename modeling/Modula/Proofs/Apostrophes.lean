import Modula.Proofs.Arrivals
import Modula.Proofs.WordsAndNumbers

/-!
# Apostrophes behind words

An apostrophe directly behind a word that starts with a letter is a stray character: it is reported
once, and no symbol starts with it. A word may start with a separator where the lexical modes allow
one. It is malformed then, and an apostrophe directly behind it opens a literal.
-/

namespace Modula

/-- A reserved word or an identifier, be it malformed or not. -/
def Token.isLexicalWord (t : Token) : Bool :=
  t.isReservedWord || t.isIdentifier || t == .malformedIdent

/-- The first character of the symbol is a letter. -/
def Symbol.StartsWithLetter (s : Symbol) : Prop := s.text.toList.head?.any Char.isAlpha = true

instance (s : Symbol) : Decidable s.StartsWithLetter :=
  inferInstanceAs (Decidable (_ = true))

/-- The character stands directly behind the symbol. -/
def Symbol.IsAdjoinedBy (source : String) (c : Char) (s : Symbol) : Prop :=
  ∃ front back, source.toList = front ++ s.text.toList ++ c :: back ∧
    s.position = Position.start.after front

namespace Tokenized

/-- The character at a position is reported once as a stray one, and no symbol starts with it. -/
structure Skips (t : Tokenized) (p : Position) (c : Char) : Prop where
  reported : t.reports.filter (fun d => d.code = .illegalCharacter ∧
    d.line = p.line ∧ d.column = p.column) = [Chunk.strayReport p c]
  skipped : ∀ x ∈ t.symbols, x.position.offset ≠ p.offset

/-- An apostrophe at an offset opens a literal, which may be malformed. -/
def OpensLiteral (t : Tokenized) (offset : Nat) : Prop :=
  ∃ x ∈ t.symbols, (x.token = .quotedString ∨ x.token = .malformedString) ∧
    x.text.toList.head? = some '\x27' ∧ x.position.offset = offset

end Tokenized

/-! ## Stray characters are reported once -/

/-- The first report is about a place in front of that of the second one. -/
def Diagnostic.Precedes (d e : Diagnostic) : Prop :=
  d.line < e.line ∨ d.line = e.line ∧ d.column < e.column

namespace Accounts

variable {o : LexicalOptions} {p : Position} {text : List Char} {ss : List Symbol}
  {ds : List Diagnostic}

/-- The reports of stray characters. -/
def strays (ds : List Diagnostic) : List Diagnostic := ds.filter (·.code = .illegalCharacter)

theorem strays_append (ds es : List Diagnostic) : strays (ds ++ es) = strays ds ++ strays es :=
  List.filter_append ..

/-- A stray character is reported in front of those behind it. -/
theorem precedes_of_mem_strays {front : List Char} {c : Char} (hfront : front ≠ [])
    (h : Accounts o (p.after front) text ss ds) : ∀ e ∈ strays ds,
      (Chunk.strayReport p c).Precedes e := by
  intro e he
  obtain ⟨hmem, hcode⟩ := List.mem_filter.1 he
  obtain ⟨u, d, back, -, rfl⟩ := h.exists_stray hmem (of_decide_eq_true hcode)
  have hne : front ++ u ≠ [] := List.append_ne_nil_of_left_ne_nil hfront u
  rw [← Position.after_append]
  exact (p.before_after hne).place

theorem pairwise_strays (h : Accounts o p text ss ds) :
    (strays ds).Pairwise Diagnostic.Precedes := by
  induction h with
  | done p => exact .nil
  | gap hgap later ih =>
    rw [strays_append]
    cases hgap with
    | blank | disabled => exact ih
    | unended hp hopen hnone => exact ih
    | stray hc hread =>
      refine List.pairwise_cons.2 ⟨later.precedes_of_mem_strays (List.cons_ne_nil _ _), ih⟩
  | symbol t hne later ih => exact ih
  | @word p c text behind ss es t hc later ih =>
    refine List.pairwise_cons.2 ⟨?_, ih⟩
    rw [Position.after_append] at later
    exact later.precedes_of_mem_strays (List.cons_ne_nil _ _)

end Accounts

/-- A stray character of a source is reported once. -/
theorem filter_reports_of_stray {o : LexicalOptions} {source : String} {p : Position} {c : Char}
    (h : Chunk.strayReport p c ∈ (tokenize o source).reports) :
    (tokenize o source).reports.filter (fun d => d.code = .illegalCharacter ∧
      d.line = p.line ∧ d.column = p.column) = [Chunk.strayReport p c] := by
  have hstrays : Accounts.strays (ofGaps (tokenize o source).reports) =
      Accounts.strays (tokenize o source).reports := by
    rw [Accounts.strays, ofGaps, List.filter_filter]
    refine List.filter_congr fun d _ => ?_
    by_cases hcode : d.code = .illegalCharacter
    · simp [hcode, Code.isOfGaps]
    · simp [hcode]
  have hpairwise := (Chunk.accounts_cut o .start source.toList).pairwise_strays
  rw [← piecesOf, ← reports_tokenize, hstrays] at hpairwise
  have hmem : Chunk.strayReport p c ∈ Accounts.strays (tokenize o source).reports :=
    List.mem_filter.2 ⟨h, rfl⟩
  have hsplit (ds : List Diagnostic) : ds.filter (fun d => d.code = .illegalCharacter ∧
      d.line = p.line ∧ d.column = p.column) =
      (Accounts.strays ds).filter fun d => d.line = p.line ∧ d.column = p.column := by
    rw [Accounts.strays, List.filter_filter]
    simp only [Bool.decide_and, Bool.and_comm]
  rw [hsplit]
  generalize Accounts.strays (tokenize o source).reports = ds at hpairwise hmem
  obtain ⟨front, back, rfl⟩ := List.append_of_mem hmem
  obtain ⟨-, hback, hfront⟩ := List.pairwise_append.1 hpairwise
  have hafter := (List.pairwise_cons.1 hback).1
  have hother {d e : Diagnostic} (h : d.Precedes e) :
      ¬(d.line = e.line ∧ d.column = e.column) := by
    unfold Diagnostic.Precedes at h
    omega
  have hself : decide ((Chunk.strayReport p c).line = p.line ∧
      (Chunk.strayReport p c).column = p.column) = true := decide_eq_true ⟨rfl, rfl⟩
  rw [List.filter_append, List.filter_cons, if_pos hself, List.filter_eq_nil_iff.2,
    List.filter_eq_nil_iff.2, List.nil_append]
  · intro d hd hplace
    have hplace := of_decide_eq_true hplace
    exact hother (hafter d hd) ⟨hplace.1.symm, hplace.2.symm⟩
  · intro d hd hplace
    exact hother (hfront d hd _ List.mem_cons_self) (of_decide_eq_true hplace)

/-! ## Words and what is behind them -/

theorem Number.isLexicalWord_token_read (p : Position) (c : Char) (rest : List Char) :
    (read p c rest).token.isLexicalWord = false := by
  have hkind := isKind_kindOf c rest
  unfold kindOf at hkind
  unfold read
  generalize (if c = '0' then afterZero rest else afterDigit rest) = kind at hkind ⊢
  obtain ⟨token, rule⟩ := kind
  dsimp only
  split
  · rfl
  · cases hkind with
    | based b ht => obtain rfl | rfl := ht <;> rfl
    | zero | malformed | fraction | digits | real => rfl

/-- What starts with a separator is malformed. -/
theorem Word.token_read_of_allowsSeparator {o : LexicalOptions} {p : Position} {c : Char}
    {rest : List Char} (hc : o.allowsSeparator c = true) :
    (read o p c rest).token = .malformedIdent := by
  have hspaced : isSpaced o.allowsSeparator false (c :: rest.takeWhile (continues o)) = false := by
    rw [isSpaced, if_pos hc, Bool.false_and]
  change classify o _ = _
  rw [classify, hspaced]
  rfl

namespace Chunk

variable {o : LexicalOptions} {p : Position} {c : Char} {rest behind : List Char} {r : Reading}
  {t : Token}

/-- Only what starts with a letter or a separator is a word. -/
theorem starts_of_isLexicalWord (h : read? o p c rest = some r)
    (ht : r.token.isLexicalWord = true) : Word.starts o c = true := by
  cases hstarts : Word.starts o c with
  | true => rfl
  | false =>
    refine absurd ht (Bool.eq_false_iff.1 ?_)
    unfold Word.starts at hstarts
    unfold read? at h
    rw [hstarts, if_neg Bool.false_ne_true] at h
    split at h
    · cases h
      exact Number.isLexicalWord_token_read p c rest
    have hquoted (quote : Char) : (Quoted.read p quote rest).token.isLexicalWord = false := by
      obtain h | h := Quoted.token_read p quote rest <;> rw [h] <;> rfl
    split at h
    · cases h
      exact hquoted _
    · cases h
      exact hquoted _
    · cases h
      rfl
    · cases h
      unfold Comment.readBlock
      dsimp only
      split <;> rfl
    · cases h
      unfold Comment.readPragma
      dsimp only
      split <;> rfl
    · have hspecial : ∀ t : Token, t.isSpecialSymbol = true → t.isLexicalWord = false := by decide
      exact hspecial _ (Special.isSpecialSymbol_of_read? h).1

/-- A piece that is a word: what is dropped with it is an apostrophe behind a word that starts with
a letter, and that is reported. -/
theorem word_first (ht : (first o p c rest).token? = some t) (hword : t.isLexicalWord = true)
    (h : c :: rest = (first o p c rest).text ++ behind) :
    (c.isAlpha = true → behind.head? = some '\x27' → (first o p c rest).dropped = ['\x27'] ∧
      strayReport (p.after (first o p c rest).text) '\x27' ∈ (first o p c rest).reports) ∧
    (c.isAlpha = false → (first o p c rest).dropped = [] ∧ t = .malformedIdent ∧
      o.allowsSeparator c = true) := by
  obtain ⟨hblank, r, hr, hfirst⟩ := exists_reading_of_token? ht
  rw [hfirst] at ht h ⊢
  obtain rfl : r.token = t := Option.some.inj ht
  have hstarts := starts_of_isLexicalWord hr hword
  have hbehind : (c :: rest).drop r.length = behind := by
    have hsplit : (c :: rest).take r.length ++ (c :: rest).drop r.length = c :: rest :=
      List.take_append_drop _ _
    exact List.append_cancel_left (hsplit.trans h)
  refine ⟨fun hc hhead => ?_, fun hc => ?_⟩
  · have hdropped : (c.isAlpha && ((c :: rest).drop r.length).head? == some '\x27') = true := by
      rw [hbehind, hc, hhead]
      rfl
    unfold ofReading
    dsimp only
    rw [if_pos hdropped, if_pos hdropped]
    exact ⟨rfl, List.mem_append_right _ (List.mem_singleton_self _)⟩
  · have hseparator : o.allowsSeparator c = true := by
      rw [Word.starts, hc, Bool.false_or] at hstarts
      exact hstarts
    rw [read?_of_starts hstarts] at hr
    obtain rfl := Option.some.inj hr
    exact ⟨dropped_ofReading_of_isAlpha_eq_false hc,
      Word.token_read_of_allowsSeparator hseparator, hseparator⟩

/-- Where no word is, an apostrophe opens a literal. -/
theorem literal_first (o : LexicalOptions) (p : Position) (rest : List Char) :
    ∃ t, (first o p '\x27' rest).token? = some t ∧ (t = .quotedString ∨ t = .malformedString) ∧
      (first o p '\x27' rest).text.head? = some '\x27' := by
  have hread : read? o p '\x27' rest = some (Quoted.read p '\x27' rest) := by
    simp [read?, LexicalOptions.allowsSeparator]
  rw [first_of_read? (by decide) hread]
  refine ⟨_, rfl, Quoted.token_read _ _ _, ?_⟩
  obtain ⟨n, hn⟩ :=
    Nat.exists_eq_succ_of_ne_zero (Nat.ne_of_gt (Quoted.read p '\x27' rest).length_pos)
  rw [text_ofReading, hn, List.take_succ_cons]
  rfl

end Chunk

/-! ## A piece and the symbols around it -/

/-- A piece of a source, cut from between what is in front of it and what is behind it. -/
structure Chunk.IsPiece (o : LexicalOptions) (source : String) (front : List Char) (k : Chunk)
    (behind : List Char) : Prop where
  source_eq : source.toList = front ++ k.extent ++ behind
  position_eq : k.position = Position.start.after front
  first_eq : ∃ c rest, c :: rest = k.extent ++ behind ∧ k = Chunk.first o k.position c rest
  pieces_eq : ∃ before,
    piecesOf o source = before ++ k :: Chunk.cut o (k.position.after k.extent) behind

theorem exists_isPiece {o : LexicalOptions} {source : String} {k : Chunk}
    (h : k ∈ piecesOf o source) : ∃ front behind, k.IsPiece o source front behind := by
  obtain ⟨before, front, c, rest, behind, hsource, hfirst, hrest, hpieces⟩ :=
    Chunk.exists_cut_of_mem_cut h
  have hposition : k.position = Position.start.after front := by
    rw [hfirst]
    exact (Chunk.within_first o _ c rest).position_eq
  refine ⟨front, behind, ?_, hposition, ⟨c, rest, hrest, ?_⟩, before, ?_⟩
  · rw [hsource, hrest, List.append_assoc]
  · rw [hposition]
    exact hfirst
  · rw [hposition]
    exact hpieces

namespace Chunk.IsPiece

variable {o : LexicalOptions} {source : String} {front behind : List Char} {k : Chunk}
  {x : Symbol}

/-- No symbol starts in the middle of a piece: it starts where the piece starts, or in front of
that, or else behind all of the piece. -/
theorem place_of_mem (h : k.IsPiece o source front behind) (hx : x ∈ (tokenize o source).symbols) :
    x.position.offset ≤ k.position.offset ∨
      ∃ u v, behind = u ++ v ∧ x.position = k.position.after (k.extent ++ u) ∧
        x.text.toList <+: v := by
  obtain ⟨before, hpieces⟩ := h.pieces_eq
  rw [symbols_tokenize, List.mem_append, List.mem_singleton] at hx
  rcases hx with hx | rfl
  · obtain ⟨l, hl, hsymbol⟩ := List.mem_filterMap.1 hx
    obtain ⟨t, -, rfl⟩ := Option.map_eq_some_iff.1 hsymbol
    dsimp only
    have hpairwise := Chunk.pairwise_cut o .start source.toList
    rw [← piecesOf, hpieces] at hpairwise
    rw [hpieces, List.mem_append, List.mem_cons] at hl
    rcases hl with hl | rfl | hl
    · obtain ⟨gap, hgap⟩ := (List.pairwise_append.1 hpairwise).2.2 l hl k List.mem_cons_self
      rw [hgap, Position.offset_after]
      exact .inl (Nat.le_add_right _ _)
    · exact .inl (Nat.le_refl _)
    · obtain ⟨u, c, rest, rfl, rfl⟩ := Chunk.exists_first_of_mem_cut hl
      have hwithin := Chunk.within_first o ((k.position.after k.extent).after u) c rest
      refine .inr ⟨u, c :: rest, rfl, ?_, ?_⟩
      · rw [hwithin.position_eq, Position.after_append]
      · rw [String.toList_ofList]
        exact hwithin.text_le
  · refine .inr ⟨behind, [], (List.append_nil _).symm, ?_, List.nil_prefix⟩
    rw [h.position_eq, ← Position.after_append, ← List.append_assoc, h.source_eq]

/-- A symbol that starts directly behind the text of a piece starts with what is behind all of the
piece, and nothing is dropped in between. -/
theorem eq_of_place (h : k.IsPiece o source front behind) (hx : x ∈ (tokenize o source).symbols)
    (hplace : x.position.offset = (k.position.after k.text).offset) :
    k.dropped = [] ∧ x.text.toList <+: behind := by
  have hlt := (k.position.before_after k.text_ne_nil).offset
  rcases h.place_of_mem hx with hle | ⟨u, v, rfl, hposition, hv⟩
  · omega
  · rw [hposition, extent, List.append_assoc, Position.after_append] at hplace
    cases hgap : k.dropped ++ u with
    | nil =>
      obtain ⟨hdropped, rfl⟩ := List.append_eq_nil_iff.1 hgap
      exact ⟨hdropped, hv⟩
    | cons d gap =>
      rw [hgap] at hplace
      have hbehind := ((k.position.after k.text).before_after (List.cons_ne_nil d gap)).offset
      omega

/-- What stands behind the text of a piece is what is dropped, and then what is behind it all. -/
theorem behind_eq {front' back : List Char} (h : k.IsPiece o source front behind)
    (hsource : source.toList = front' ++ k.text ++ back)
    (hposition : k.position = Position.start.after front') : k.dropped ++ behind = back := by
  have hle' : front' <+: source.toList := ⟨k.text ++ back, by rw [hsource, List.append_assoc]⟩
  have hle : front <+: source.toList :=
    ⟨k.extent ++ behind, by rw [h.source_eq, List.append_assoc]⟩
  obtain rfl : front' = front :=
    Position.eq_of_offset_eq hle' hle (by rw [← hposition, h.position_eq])
  rw [h.source_eq, extent, List.append_assoc, List.append_assoc, List.append_assoc] at hsource
  exact List.append_cancel_left (List.append_cancel_left hsource)

theorem mem_reports (h : k.IsPiece o source front behind) {d : Diagnostic} (hd : d ∈ k.reports) :
    d ∈ (tokenize o source).reports := by
  obtain ⟨before, hpieces⟩ := h.pieces_eq
  rw [reports_tokenize, hpieces]
  exact List.mem_flatMap.2 ⟨k, List.mem_append_right _ List.mem_cons_self, hd⟩

/-- Behind a piece with which nothing is dropped, an apostrophe opens a literal. -/
theorem opensLiteral (h : k.IsPiece o source front behind) (hdropped : k.dropped = [])
    (hbehind : behind.head? = some '\x27') :
    (tokenize o source).OpensLiteral (k.position.after k.text).offset := by
  obtain ⟨before, hpieces⟩ := h.pieces_eq
  obtain ⟨rest, rfl⟩ := List.head?_eq_some_iff.1 hbehind
  rw [extent, hdropped, List.append_nil, cut_cons] at hpieces
  obtain ⟨t, ht, hquoted, htext⟩ := literal_first o (k.position.after k.text) rest
  have hkept : Scanned.keptToken? o (first o (k.position.after k.text) '\x27' rest) = some t := by
    rw [Scanned.keptToken?, ht]
    obtain rfl | rfl := hquoted <;> simp [Token.isComment]
  refine ⟨⟨t, String.ofList (first o (k.position.after k.text) '\x27' rest).text,
    k.position.after k.text⟩, ?_, hquoted, ?_, rfl⟩
  · rw [symbols_tokenize, symbolsOf, hpieces]
    refine List.mem_append_left _ (List.mem_filterMap.2 ⟨_, List.mem_append_right _
      (List.mem_cons_of_mem _ List.mem_cons_self), ?_⟩)
    rw [symbol?, hkept, Option.map_some, (within_first o _ _ _).position_eq]
  · rw [String.toList_ofList]
    exact htext

end Chunk.IsPiece

/-! ## Main result -/

/-- What becomes of an apostrophe directly behind a word. If the word starts with a letter, the
apostrophe is reported once and skipped, so that no literal starts there. Otherwise the word starts
with a separator and is malformed, and the apostrophe opens a literal. -/
theorem apostrophe_behind_word {o : LexicalOptions} {source : String} {s : Symbol}
    (hs : s ∈ (tokenize o source).symbols) (hword : s.token.isLexicalWord = true) :
    (s.StartsWithLetter → ¬(tokenize o source).OpensLiteral s.stop ∧
      (s.IsAdjoinedBy source '\x27' →
        (tokenize o source).Skips (s.position.after s.text.toList) '\x27')) ∧
    (¬s.StartsWithLetter → s.token = .malformedIdent ∧
      s.text.toList.head?.any o.allowsSeparator = true ∧
      (s.IsAdjoinedBy source '\x27' → (tokenize o source).OpensLiteral s.stop)) := by
  have hne : s.token ≠ .endOfFile := by
    intro h
    rw [h] at hword
    cases hword
  obtain ⟨k, hk, hsymbol⟩ := List.mem_filterMap.1 (mem_symbolsOf_of_ne hs hne)
  obtain ⟨t, hkept, rfl⟩ := Option.map_eq_some_iff.1 hsymbol
  have ht := (Option.filter_eq_some_iff.1 hkept).1
  obtain ⟨front, behind, hpiece⟩ := exists_isPiece hk
  obtain ⟨c, rest, hrest, hfirst⟩ := hpiece.first_eq
  have hsplit : c :: rest = k.text ++ (k.dropped ++ behind) := by
    rw [hrest, Chunk.extent, List.append_assoc]
  obtain ⟨hletter, hseparator⟩ := Chunk.word_first (hfirst ▸ ht) hword (hfirst ▸ hsplit)
  rw [← hfirst] at hletter hseparator
  have hhead : k.text.head? = some c := by
    obtain ⟨d, text, htext⟩ := List.exists_cons_of_ne_nil k.text_ne_nil
    rw [htext] at hsplit ⊢
    rw [(List.cons.inj hsplit).1]
    rfl
  have hstop : (k.position.after k.text).offset =
      Symbol.stop ⟨t, String.ofList k.text, k.position⟩ := by
    rw [← Symbol.offset_after_text, String.toList_ofList]
  unfold Symbol.StartsWithLetter Symbol.IsAdjoinedBy
  rw [String.toList_ofList, ← hstop, hhead, Option.any_some, Option.any_some]
  refine ⟨fun hc => ⟨?_, ?_⟩, fun hc => ?_⟩
  · rintro ⟨x, hx, -, hx', hplace⟩
    obtain ⟨hdropped, hle⟩ := hpiece.eq_of_place hx hplace
    have hbehind : (k.dropped ++ behind).head? = some '\x27' := by
      obtain ⟨back, rfl⟩ := hle
      rw [hdropped, List.nil_append, List.head?_append, hx']
      rfl
    rw [(hletter hc hbehind).1] at hdropped
    cases hdropped
  · rintro ⟨front', back, hsource, hposition⟩
    obtain ⟨hdropped, hreport⟩ := hletter hc (by rw [hpiece.behind_eq hsource hposition]; rfl)
    refine ⟨filter_reports_of_stray (hpiece.mem_reports hreport), fun x hx hplace => ?_⟩
    rw [(hpiece.eq_of_place hx hplace).1] at hdropped
    cases hdropped
  · obtain ⟨hdropped, htoken, hallowed⟩ := hseparator (Bool.eq_false_iff.2 hc)
    refine ⟨htoken, hallowed, ?_⟩
    rintro ⟨front', back, hsource, hposition⟩
    have hbehind := hpiece.behind_eq hsource hposition
    rw [hdropped, List.nil_append] at hbehind
    exact hpiece.opensLiteral hdropped (by rw [hbehind]; rfl)

/-- Both kinds of words in one source: the apostrophe behind `x` is skipped, and the one behind `_a`
opens a literal. -/
theorem apostrophe_behind_word_and_separator :
    let t := tokenize { lowline := true } "x' _a'"
    let x : Symbol := ⟨.stdIdent, "x", ⟨0, 1, 1⟩⟩
    let a : Symbol := ⟨.malformedIdent, "_a", ⟨3, 1, 4⟩⟩
    (x ∈ t.symbols ∧ x.token.isLexicalWord = true ∧ ¬t.OpensLiteral 1 ∧ t.Skips ⟨1, 1, 2⟩ '\x27') ∧
      a ∈ t.symbols ∧ a.token.isLexicalWord = true ∧ t.OpensLiteral 5 := by
  intro t x a
  have hx : x ∈ t.symbols := by decide +kernel
  have ha : a ∈ t.symbols := by decide +kernel
  have hplace : x.position.after x.text.toList = ⟨1, 1, 2⟩ := by decide
  obtain ⟨hnone, hskips⟩ := (apostrophe_behind_word hx rfl).1 (by decide)
  obtain ⟨-, -, hopens⟩ := (apostrophe_behind_word ha rfl).2 (by decide)
  rw [hplace] at hskips
  refine ⟨⟨hx, rfl, hnone, hskips ⟨[], " _a'".toList, by decide, rfl⟩⟩, ha, rfl, ?_⟩
  exact hopens ⟨"x' ".toList, [], by decide, by decide⟩

/-- It is not true that an apostrophe behind a word opens no literal. -/
theorem not_forall_word_not_opensLiteral :
    ¬∀ (o : LexicalOptions) (source : String), ∀ s ∈ (tokenize o source).symbols,
      s.token.isLexicalWord = true → ¬(tokenize o source).OpensLiteral s.stop := by
  intro h
  refine h { lowline := true } "_a' :=" ⟨.malformedIdent, "_a", .start⟩ (by decide +kernel) rfl ?_
  exact ⟨⟨.malformedString, "' :=", ⟨2, 1, 3⟩⟩, by decide +kernel, .inr rfl, by decide, by decide⟩

end Modula
