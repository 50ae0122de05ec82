import Modula.Proofs.ExactPositions
import Modula.Proofs.Gaps

/-!
# What calls give out

What a scanner gives out, called for one symbol after the other, is what the pieces of the source
hold. So the symbols it gives out and the gaps between them account for every byte of the source.
-/

namespace Modula

namespace Scanner

theorem calls_succ (s : Scanner) (n : Nat) : s.calls (n + 1) = s.next.1 :: s.next.2.calls n := by
  rw [calls, List.range_succ_eq_map, List.map_cons, List.map_map]
  rfl

/-! ## The end of the source -/

theorem next_of_rest_eq_nil {s : Scanner} (h : s.rest = []) :
    s.next = (⟨⟨.endOfFile, "", s.position⟩, []⟩, s) := by
  rw [next]
  split
  · rfl
  · next hr => rw [h] at hr; cases hr

/-- The end of the source is given out for ever, without faults. -/
theorem call_of_rest_eq_nil {s : Scanner} (h : s.rest = []) (n : Nat) :
    s.call n = ⟨⟨.endOfFile, "", s.position⟩, []⟩ := by
  induction n with
  | zero => rw [call, next_of_rest_eq_nil h]
  | succ n ih => rw [call, next_of_rest_eq_nil h, ih]

/-! ## One call -/

section

variable {o : LexicalOptions} {p : Position} {c : Char} {rest behind : List Char}

theorem next_cons (o : LexicalOptions) (p : Position) (c : Char) (rest : List Char) :
    next ⟨o, p, c :: rest⟩ =
      match (Chunk.first o p c rest).asSymbol? with
      | some symbol =>
        (⟨symbol, (Chunk.first o p c rest).reports⟩,
          skip ⟨o, p, c :: rest⟩ (Chunk.first o p c rest))
      | none =>
        ({ (skip ⟨o, p, c :: rest⟩ (Chunk.first o p c rest)).next.1 with
            reports := (Chunk.first o p c rest).reports ++
              (skip ⟨o, p, c :: rest⟩ (Chunk.first o p c rest)).next.1.reports },
          (skip ⟨o, p, c :: rest⟩ (Chunk.first o p c rest)).next.2) :=
  (next.eq_def _).trans rfl

theorem skip_of_extent (h : c :: rest = (Chunk.first o p c rest).extent ++ behind) :
    skip ⟨o, p, c :: rest⟩ (Chunk.first o p c rest) =
      ⟨o, p.after (Chunk.first o p c rest).extent, behind⟩ := by
  have hdrop : (c :: rest).drop (Chunk.first o p c rest).extent.length = behind := by
    generalize (Chunk.first o p c rest).extent = extent at h ⊢
    rw [h, List.drop_left]
  rw [skip, hdrop]

end

/-! ## All calls -/

/-- Calls give out these symbols and then `e`, with these faults in all; later calls give out `e`
without faults. -/
structure GivesOut (s : Scanner) (e : Symbol) (symbols : List Symbol)
    (reports : List Diagnostic) : Prop where
  symbols_eq : (s.calls (symbols.length + 1)).map Scanned.symbol = symbols ++ [e]
  reports_eq : (s.calls (symbols.length + 1)).flatMap Scanned.reports = reports
  later : ∀ i, symbols.length < i → s.call i = ⟨e, []⟩

namespace GivesOut

variable {s s' : Scanner} {e x : Symbol} {xs : List Symbol} {ds es : List Diagnostic}

theorem of_rest_eq_nil (h : s.rest = []) : s.GivesOut ⟨.endOfFile, "", s.position⟩ [] [] := by
  refine ⟨?_, ?_, fun i _ => call_of_rest_eq_nil h i⟩
  · rw [calls_succ, next_of_rest_eq_nil h]
    rfl
  · rw [calls_succ, next_of_rest_eq_nil h]
    rfl

/-- A call that gives out a symbol. -/
theorem found (h : s'.GivesOut e xs es) (hnext : s.next = (⟨x, ds⟩, s')) :
    s.GivesOut e (x :: xs) (ds ++ es) := by
  refine ⟨?_, ?_, fun i hi => ?_⟩
  · rw [List.length_cons, calls_succ, hnext, List.map_cons, h.symbols_eq, List.cons_append]
  · rw [List.length_cons, calls_succ, hnext, List.flatMap_cons, h.reports_eq]
  · obtain ⟨j, rfl⟩ := Nat.exists_eq_add_one_of_ne_zero (Nat.ne_zero_of_lt hi)
    rw [call, hnext]
    exact h.later j (Nat.lt_of_succ_lt_succ hi)

/-- A call that does not stop at a gap. -/
theorem missed (h : s'.GivesOut e xs es)
    (hnext : s.next = ({ s'.next.1 with reports := ds ++ s'.next.1.reports }, s'.next.2)) :
    s.GivesOut e xs (ds ++ es) := by
  obtain ⟨hsymbols, hreports, hlater⟩ := h
  rw [calls_succ] at hsymbols hreports
  refine ⟨?_, ?_, fun i hi => ?_⟩
  · rw [calls_succ, hnext]
    exact hsymbols
  · rw [calls_succ, hnext, ← hreports, List.flatMap_cons, List.flatMap_cons, List.append_assoc]
  · obtain ⟨j, rfl⟩ := Nat.exists_eq_add_one_of_ne_zero (Nat.ne_zero_of_lt hi)
    rw [call, hnext]
    exact hlater (j + 1) hi

end GivesOut

/-- Calls give out the symbols and the faults of the pieces. -/
theorem givesOut_cut (o : LexicalOptions) (p : Position) (text : List Char) :
    GivesOut ⟨o, p, text⟩ ⟨.endOfFile, "", p.after text⟩
      ((Chunk.cut o p text).filterMap Chunk.asSymbol?)
      ((Chunk.cut o p text).flatMap Chunk.reports) := by
  induction p, text using Chunk.cut_induction o with
  | nil p =>
    rw [Chunk.cut_nil]
    exact .of_rest_eq_nil rfl
  | cons p c rest behind htext ih =>
    have hnext := next_cons o p c rest
    rw [skip_of_extent htext] at hnext
    have hend : p.after (c :: rest) = (p.after (Chunk.first o p c rest).extent).after behind := by
      rw [← Position.after_append, ← htext]
    rw [Chunk.filterMap_cut_of_extent _ htext, Chunk.reports_cut_of_extent htext, hend]
    cases hk : (Chunk.first o p c rest).asSymbol? with
    | none =>
      rw [hk] at hnext
      exact ih.missed hnext
    | some s =>
      rw [hk] at hnext
      exact ih.found hnext

end Scanner

/-! ## The account of a source -/

/-- The number of bytes in front of the end of a symbol. -/
def Symbol.stop (s : Symbol) : Nat := s.position.offset + s.text.utf8ByteSize

theorem Symbol.offset_after_text (s : Symbol) :
    (s.position.after s.text.toList).offset = s.stop := by
  rw [Position.offset_after, String.ofList_toList, Symbol.stop]

theorem Symbol.Stands.offset_lt_stop {source : String} {s : Symbol} (h : s.Stands source) :
    s.position.offset < s.stop := by
  have hsize : s.text.utf8ByteSize ≠ 0 := fun h0 => h.text_ne (String.utf8ByteSize_eq_zero_iff.1 h0)
  exact Nat.lt_add_of_pos_right (Nat.pos_of_ne_zero hsize)

theorem Symbol.Stands.stop_valid {source : String} {s : Symbol} (h : s.Stands source) :
    (⟨s.stop⟩ : String.Pos.Raw).IsValid source := by
  obtain ⟨front, back, hsource, hposition⟩ := h.place
  have hexact := Position.exact_after
    (show front ++ s.text.toList <+: source.toList from ⟨back, hsource.symm⟩)
  have hstop : (Position.start.after (front ++ s.text.toList)).offset = s.stop := by
    rw [Position.after_append, ← hposition, s.offset_after_text]
  rw [← hstop]
  exact hexact.valid

/-- A symbol ends where the next one starts, or in front of it. -/
theorem Symbol.IsBehind.stop_le {s t : Symbol} (h : t.IsBehind s) :
    s.stop ≤ t.position.offset := by
  obtain ⟨gap, hgap⟩ := h
  rw [hgap, Position.after_append, Position.offset_after, Position.offset_after,
    String.ofList_toList]
  exact Nat.le_add_right _ _

open Scanner in
/-- What `n` calls for symbols give out, before the end of the source is given out for ever. -/
structure Scanner.Run (o : LexicalOptions) (source : String) (n : Nat) : Prop where
  /-- The end of the source is given out from then on. -/
  ends : ∀ i, ((ofText o source).call i).symbol.token = .endOfFile ↔ n ≤ i
  /-- There are no faults behind the end. -/
  silent : ∀ i, n < i → ((ofText o source).call i).reports = []
  /-- Each symbol has some bytes, and no part of a character. -/
  spans : ∀ x ∈ (ofText o source).calls n, x.symbol.position.offset < x.symbol.stop ∧
    x.symbol.position.Exact source ∧ (⟨x.symbol.stop⟩ : String.Pos.Raw).IsValid source
  /-- The bytes of each symbol are in front of those of the later ones. -/
  apart : ((ofText o source).calls n).Pairwise fun x y => x.symbol.stop ≤ y.symbol.position.offset
  /-- The symbols and the gaps make up the source, and the faults of gaps are given out in order. -/
  accounts : Accounts o .start source.toList (((ofText o source).calls n).map Scanned.symbol)
    (ofGaps (((ofText o source).calls (n + 1)).flatMap Scanned.reports))
  /-- Stray characters are reported where they stand. -/
  strays : ∀ d ∈ ((ofText o source).calls (n + 1)).flatMap Scanned.reports,
    d.code = .illegalCharacter → ∃ front c behind, source = front ++ String.singleton c ++ behind ∧
      d.char = some c ∧ d.line = Text.lineAt source front.utf8ByteSize ∧
      d.column = Text.columnAt source front.utf8ByteSize
  /-- The symbols of the source are those given out, without comments if these are no symbols. -/
  symbols : (tokenize o source).symbols =
    (((ofText o source).calls (n + 1)).map Scanned.symbol).filter fun s =>
      o.comments || !s.token.isComment
  /-- The faults of the source are those given out. -/
  reports : (tokenize o source).reports =
    ((ofText o source).calls (n + 1)).flatMap Scanned.reports

section

variable {o : LexicalOptions} {source : String}

/-- The calls in front of the end give out the symbols of the source. -/
theorem Scanner.GivesOut.map_symbol_calls {s : Scanner} {e : Symbol} {xs : List Symbol}
    {ds : List Diagnostic} (h : s.GivesOut e xs ds) :
    (s.calls xs.length).map Scanned.symbol = xs ∧ (s.call xs.length).symbol = e := by
  have hsymbols := h.symbols_eq
  rw [calls, List.range_succ, List.map_append, List.map_append] at hsymbols
  have hboth := List.append_inj' hsymbols rfl
  exact ⟨hboth.1, (List.cons.inj hboth.2).1⟩

/-- A stray character of a source is reported at its line and column. -/
theorem Accounts.exists_place_of_stray {ss : List Symbol} {ds : List Diagnostic}
    (h : Accounts o .start source.toList ss ds) {d : Diagnostic} (hd : d ∈ ds)
    (hcode : d.code = .illegalCharacter) :
    ∃ front c behind, source = front ++ String.singleton c ++ behind ∧ d.char = some c ∧
      d.line = Text.lineAt source front.utf8ByteSize ∧
      d.column = Text.columnAt source front.utf8ByteSize := by
  obtain ⟨front, c, behind, hsource, rfl⟩ := h.exists_stray hd hcode
  have hexact := Position.exact_after
    (show front <+: source.toList from ⟨c :: behind, hsource.symm⟩)
  have hoffset : (Position.start.after front).offset = (String.ofList front).utf8ByteSize := by
    rw [Position.offset_after]
    exact Nat.zero_add _
  refine ⟨String.ofList front, c, String.ofList behind, ?_, rfl, ?_, ?_⟩
  · rw [← String.toList_inj]
    simp [hsource]
  · rw [← hoffset]
    exact hexact.line_eq
  · rw [← hoffset]
    exact hexact.column_eq

/-- The scanner accounts for every byte of a source. After some calls it gives out the end of the
source for ever; the symbols before that and the gaps between them make up the source, and the
faults of gaps are given out in their order. -/
theorem scanner_accounts_for_source (o : LexicalOptions) (source : String) :
    ∃ n, Scanner.Run o source n := by
  have hgives := Scanner.givesOut_cut o .start source.toList
  change Scanner.GivesOut (.ofText o source) _ (allSymbolsOf o source) _ at hgives
  obtain ⟨hcalls, hend⟩ := hgives.map_symbol_calls
  have hstands : ∀ x ∈ (Scanner.ofText o source).calls (allSymbolsOf o source).length,
      x.symbol.Stands source := by
    intro x hx
    refine stands_of_mem_allSymbolsOf (o := o) ?_
    rw [← hcalls]
    exact List.mem_map_of_mem hx
  have haccounts := Chunk.accounts_cut o .start source.toList
  rw [← hgives.reports_eq] at haccounts
  refine ⟨(allSymbolsOf o source).length, fun i => ⟨fun hi => ?_, fun hi => ?_⟩, fun i hi => ?_,
    fun x hx => ?_, ?_, ?_, fun d hd hcode => ?_, ?_, ?_⟩
  · by_contra hlt
    refine (hstands ((Scanner.ofText o source).call i) ?_).token_ne hi
    exact List.mem_map_of_mem (List.mem_range.2 (Nat.lt_of_not_le hlt))
  · rcases Nat.lt_or_eq_of_le hi with hlt | rfl
    · rw [hgives.later i hlt]
    · rw [hend]
  · rw [hgives.later i hi]
  · have h := hstands x hx
    exact ⟨h.offset_lt_stop, h.exact_position, h.stop_valid⟩
  · rw [← List.pairwise_map (f := Scanned.symbol) (R := fun s t => s.stop ≤ t.position.offset),
      hcalls]
    exact (pairwise_allSymbolsOf o source).imp fun h => h.stop_le
  · rw [hcalls]
    exact haccounts
  · refine haccounts.exists_place_of_stray (List.mem_filter.2 ⟨hd, ?_⟩) hcode
    rw [hcode]
    rfl
  · rw [symbols_tokenize, symbolsOf_eq_filter, hgives.symbols_eq, List.filter_append]
    simp [Token.isComment]
  · rw [reports_tokenize, hgives.reports_eq]
    rfl

end

end Modula
