import Mathlib.Data.List.Forall2
import Modula.Proofs.Relocation

/-!
# Disabled code is invisible

Of disabled code that ends, nothing is seen but the line feeds in it. Whatever else is disabled,
quotes and openers of comments among it, is not read. Disabled code that does not end hides the rest
of the source, and that is the only fault found there.
-/

namespace Modula

open Chunk Scanner Comment

namespace Comment

/-- Disabled code goes up to the end of the first line that starts with `?>`, in front of
`behind`. -/
structure IsDisabled (region behind : List Char) : Prop where
  exists_line : ∃ front line, region = front ++ closer ++ line ∧ IsFirst front (region ++ behind) ∧
    '\n' ∉ line
  ends : EndsLine behind

/-- Disabled code takes a whole line that ends it. -/
theorem disabledExtent?_closer {line behind : List Char} (hline : '\n' ∉ line)
    (hend : EndsLine behind) (n : Nat) : disabledExtent? n (closer ++ (line ++ behind)) =
      some (n + (closer.length + line.length)) := by
  have hall : ∀ c ∈ line, (c != '\n') = true := by
    intro c hc
    rw [bne_iff_ne]
    exact fun h => hline (h ▸ hc)
  have hstop : behind.takeWhile (· != '\n') = [] := by
    obtain rfl | hhead := hend
    · rfl
    · obtain ⟨more, rfl⟩ := List.head?_eq_some_iff.1 hhead
      rfl
  have htake : (line ++ behind).takeWhile (· != '\n') = line := by
    rw [List.takeWhile_append_of_pos hall, hstop, List.append_nil]
  change some (n + 3 + ((line ++ behind).takeWhile (· != '\n')).length) = _
  rw [htake, Nat.add_assoc]
  rfl

theorem disabledExtent?_of_isFirst {front line behind : List Char} (hline : '\n' ∉ line)
    (hend : EndsLine behind) (h : IsFirst front (front ++ (closer ++ (line ++ behind)))) (n : Nat) :
    disabledExtent? n (front ++ (closer ++ (line ++ behind))) =
      some (n + (front.length + (closer.length + line.length))) := by
  induction front generalizing n with
  | nil => rw [List.nil_append, disabledExtent?_closer hline hend, List.length_nil, Nat.zero_add]
  | cons c front ih =>
    have hnot : ¬closer <+: c :: (front ++ (closer ++ (line ++ behind))) := by
      rintro ⟨more, hmore⟩
      exact absurd (h [] more hmore.symm) (Nat.not_succ_le_zero _)
    have hfirst : IsFirst front (front ++ (closer ++ (line ++ behind))) := fun a b hab =>
      Nat.le_of_succ_le_succ (h (c :: a) b (congrArg (c :: ·) hab))
    rw [List.cons_append, disabledExtent?_cons hnot, ih hfirst, List.length_cons, Nat.add_assoc,
      Nat.add_comm 1, Nat.add_right_comm front.length]

theorem IsDisabled.disabledExtent?_eq {region behind : List Char} (h : IsDisabled region behind) :
    disabledExtent? 0 (region ++ behind) = some region.length := by
  obtain ⟨⟨front, line, rfl, hfirst, hline⟩, hend⟩ := h
  have hassoc : front ++ closer ++ line ++ behind = front ++ (closer ++ (line ++ behind)) := by
    simp only [List.append_assoc]
  rw [hassoc] at hfirst ⊢
  rw [disabledExtent?_of_isFirst hline hend hfirst, Nat.zero_add]
  simp only [List.length_append, Nat.add_assoc]

/-- Disabled code has at least the line feed in front of its last line. -/
theorem IsDisabled.lineFeed_mem {region behind : List Char} (h : IsDisabled region behind) :
    '\n' ∈ region := by
  obtain ⟨⟨front, line, rfl, -, -⟩, -⟩ := h
  simp [closer]

/-- Disabled code ends if some later line starts with `?>`. -/
theorem exists_isDisabled {code : List Char} (h : closer <:+: code) :
    ∃ region behind, code = region ++ behind ∧ IsDisabled region behind := by
  cases hn : disabledExtent? 0 code with
  | none =>
    obtain ⟨a, b, hab⟩ := h
    exact absurd hab.symm (ne_of_disabledExtent?_eq_none hn a b)
  | some n =>
    obtain ⟨front, line, behind, hcode, -, hfirst, hline, hend⟩ :=
      exists_of_disabledExtent?_eq_some hn
    exact ⟨front ++ closer ++ line, behind, hcode, ⟨front, line, rfl, hcode ▸ hfirst, hline⟩, hend⟩

theorem disabledExtent?_eq_none {code : List Char} (h : ¬closer <:+: code) :
    disabledExtent? 0 code = none := by
  cases hn : disabledExtent? 0 code with
  | none => rfl
  | some n =>
    obtain ⟨front, line, behind, hcode, -⟩ := exists_of_disabledExtent?_eq_some hn
    rw [List.append_assoc (front ++ closer)] at hcode
    exact absurd ⟨front, line ++ behind, hcode.symm⟩ h

end Comment

/-- As many line feeds as there are in a text. -/
def lineFeeds (text : List Char) : List Char := List.replicate (text.count '\n') '\n'

theorem isBlank_of_mem_lineFeeds {text : List Char} : ∀ c ∈ lineFeeds text, isBlank c = true := by
  intro c hc
  rw [List.eq_of_mem_replicate hc]
  rfl

theorem line_after_lineFeeds (p : Position) (text : List Char) :
    (p.after (lineFeeds text)).line = (p.after text).line := by
  rw [Position.line_after, Position.line_after, lineFeeds, List.count_replicate_self]

/-- Behind the next line feed, it makes no difference if there are only line feeds in front. -/
theorem level_lineFeeds (p : Position) (text : List Char) :
    ((p.after text).next '\n').Level ((p.after (lineFeeds text)).next '\n') :=
  ⟨congrArg (· + 1) (line_after_lineFeeds p text).symm, rfl⟩

/-! ## Disabled code that ends -/

/-- A symbol shows what another one does; if it is the end of the source, it may stand elsewhere
when `moves`. -/
structure Symbol.ShowsAs (moves : Prop) (s' s : Symbol) : Prop where
  token_eq : s'.token = s.token
  text_eq : s'.text = s.text
  place : ¬(moves ∧ s.token = .endOfFile) → s'.line = s.line ∧ s'.column = s.column

/-- The symbols show the same, one after the other, and the faults are the same. -/
structure Tokenized.ShowsAs (moves : Prop) (t' t : Tokenized) : Prop where
  symbols : List.Forall₂ (Symbol.ShowsAs moves) t'.symbols t.symbols
  reports_eq : t'.reports = t.reports

theorem Symbol.forall₂_showsAs {moves : Prop} {ss' ss : List Symbol}
    (h : ss'.map shown = ss.map shown) : List.Forall₂ (ShowsAs moves) ss' ss := by
  rw [← List.forall₂_eq_eq_eq, List.forall₂_map_left_iff, List.forall₂_map_right_iff] at h
  refine h.imp fun s' s hshown => ?_
  obtain ⟨htoken, htext, hline, hcolumn⟩ : s'.token = s.token ∧ s'.text = s.text ∧
      s'.line = s.line ∧ s'.column = s.column := by simpa [shown] using hshown
  exact ⟨htoken, htext, fun _ => ⟨hline, hcolumn⟩⟩

section

variable {o : LexicalOptions} {source : String} {p : Position}
  {front code region behind : List Char} {ss : List Symbol} {ds : List Diagnostic}

/-- Disabled code that ends has no symbols and no faults. -/
theorem readsAs_disabled (hp : p.column = 1) (hopen : ['?', '<'] <+: region ++ behind)
    (h : IsDisabled region behind) (hbehind : ReadsAs o (p.after region) behind ss ds) :
    ReadsAs o p (region ++ behind) ss ds := by
  have hextent := h.disabledExtent?_eq
  have hlength := (bounds_disabledExtent? hextent).1
  obtain ⟨v, rfl⟩ := List.prefix_of_prefix_length_le hopen (List.prefix_append region behind)
    (by simp only [List.length_cons, List.length_nil]; omega)
  have hfirst : first o p '?' ('<' :: v ++ behind) = idle p '?' ('<' :: v) [] :=
    first_of_disabledExtent? hp hextent
  change ReadsAs o p ('?' :: ('<' :: v ++ behind)) ss ds
  have hsplit : '?' :: ('<' :: v ++ behind) =
      (first o p '?' ('<' :: v ++ behind)).extent ++ behind := by
    rw [hfirst, extent_idle]
    rfl
  rw [readsAs_iff_of_extent hsplit, hfirst, extent_idle]
  exact ⟨ss, ds, rfl, rfl, hbehind⟩

/-- Behind disabled code the text is read as it is behind line feeds only. -/
theorem shown_symbols_behind (p : Position) (region : List Char) (h : EndsLine behind) :
    (Chunk.symbols o (p.after (lineFeeds region)) behind).map Symbol.shown =
        (Chunk.symbols o (p.after region) behind).map Symbol.shown ∧
      (cut o (p.after (lineFeeds region)) behind).flatMap reports =
        (cut o (p.after region) behind).flatMap reports := by
  obtain rfl | hhead := h
  · simp [Chunk.symbols]
  obtain ⟨more, rfl⟩ := List.head?_eq_some_iff.1 hhead
  have hblank (q : Position) : ReadsAs o q (['\n'] ++ more) (Chunk.symbols o (q.next '\n') more)
      ((cut o (q.next '\n') more).flatMap reports) :=
    (readsAs_blanks (by simp [isBlank])).2 ⟨rfl, rfl⟩
  rw [← List.singleton_append]
  rw [(hblank _).symbols_eq, (hblank _).reports_eq, (hblank _).symbols_eq, (hblank _).reports_eq]
  exact shown_symbols_of_level (level_lineFeeds p region) more

/-- Where a line feed comes instead of disabled code, the text in front of it is not read
otherwise. -/
theorem passesFor_lineFeeds (hopen : ['?', '<'] <+: region ++ behind) (h : IsDisabled region behind)
    (u : List Char) : PassesFor (u ++ (lineFeeds region ++ behind)) (u ++ (region ++ behind)) := by
  obtain ⟨v, hcode⟩ := hopen
  obtain ⟨n, hn⟩ := Nat.exists_eq_succ_of_ne_zero
    (Nat.ne_of_gt (List.count_pos_iff.2 h.lineFeed_mem))
  rw [← hcode, lineFeeds, hn, List.replicate_succ]
  exact (Replaces.passesFor ⟨.line _, by simp⟩).append (by simp) u

/-- Line feeds may stand in place of disabled code. -/
theorem showsAs_lineFeeds (hsource : source.toList = front ++ (region ++ behind))
    (harrives : Arrives o source ⟨o, Position.start.after front, region ++ behind⟩)
    (hcolumn : (Position.start.after front).column = 1) (hopen : ['?', '<'] <+: region ++ behind)
    (h : IsDisabled region behind) :
    Tokenized.ShowsAs (behind = [])
      (tokenize o (String.ofList (front ++ lineFeeds region ++ behind))) (tokenize o source) := by
  obtain ⟨front', ss, ds, hsource', -, -, hreads⟩ := harrives.exists_readsAs
  obtain rfl : front = front' := List.append_cancel_right (hsource.symm.trans hsource')
  have hold := hreads _ _ _ (fun _ => .rfl) (readsAs_disabled hcolumn hopen h ⟨rfl, rfl⟩)
  have hnew := hreads _ _ _ (passesFor_lineFeeds hopen h)
    ((readsAs_blanks isBlank_of_mem_lineFeeds).2 ⟨rfl, rfl⟩)
  obtain ⟨hsymbols, hreports⟩ := shown_symbols_behind (o := o) (Position.start.after front) region
    h.ends
  have htext : (String.ofList (front ++ lineFeeds region ++ behind)).toList =
      front ++ (lineFeeds region ++ behind) := by rw [String.toList_ofList, List.append_assoc]
  constructor
  · rw [symbols_tokenize, symbols_tokenize, symbolsOf, symbolsOf, piecesOf, piecesOf, htext,
      hsource]
    refine List.rel_append (Symbol.forall₂_showsAs ?_) (.cons ⟨rfl, rfl, fun hmoves => ?_⟩ .nil)
    · have hold := hold.symbols_eq
      have hnew := hnew.symbols_eq
      unfold Chunk.symbols at hold hnew
      rw [hold, hnew, List.map_append, List.map_append]
      exact congrArg _ hsymbols
    · obtain hnil | hhead := h.ends
      · exact absurd ⟨hnil, rfl⟩ hmoves
      obtain ⟨more, rfl⟩ := List.head?_eq_some_iff.1 hhead
      have hlevel := (level_lineFeeds (Position.start.after front) region).after more
      rw [Position.after_append, Position.after_append, Position.after_append,
        Position.after_append]
      exact ⟨hlevel.line_eq.symm, hlevel.column_eq.symm⟩
  · rw [reports_tokenize, reports_tokenize, piecesOf, piecesOf, htext, hsource, hold.reports_eq,
      hnew.reports_eq, hreports]

/-! ## Disabled code that does not end -/

/-- From a place behind `front` the source is not read: the next symbol is its end, and there is one
fault, which is a warning. -/
structure HidesRest (o : LexicalOptions) (source : String) (front code : List Char)
    (d : Diagnostic) : Prop where
  next_eq : Scanner.next ⟨o, Position.start.after front, code⟩ =
    (⟨⟨.endOfFile, "", Position.start.after source.toList⟩, [d]⟩,
      ⟨o, Position.start.after source.toList, []⟩)
  symbols_eq : (tokenize o source).symbols = (tokenize o (String.ofList front)).inner ++
    [⟨.endOfFile, "", Position.start.after source.toList⟩]
  reports_eq : (tokenize o source).reports = (tokenize o (String.ofList front)).reports ++ [d]
  /-- The warning is the only one of its kind. -/
  code_ne : ∀ d' ∈ (tokenize o (String.ofList front)).reports, d'.code ≠ d.code
  warns : d.severity = .warning

/-- Disabled code that does not end is all that is left of the text, and has one fault. -/
theorem first_of_not_infix (hp : p.column = 1) (hopen : ['?', '<'] <+: code)
    (h : ¬closer <:+: code) : ∃ rest, code = '?' :: rest ∧
      first o p '?' rest = idle p '?' rest [.ofPosition .unterminatedDisabled p] := by
  obtain ⟨v, rfl⟩ := hopen
  exact ⟨'<' :: v, rfl,
    first_of_disabledExtent?_eq_none hp rfl (disabledExtent?_eq_none h)⟩

theorem readsAs_nil (o : LexicalOptions) (p : Position) : ReadsAs o p [] [] [] :=
  ⟨by rw [Chunk.symbols, cut_nil, List.filterMap_nil], by rw [cut_nil, List.flatMap_nil]⟩

theorem hidesRest (hsource : source.toList = front ++ code)
    (harrives : Arrives o source ⟨o, Position.start.after front, code⟩)
    (hcolumn : (Position.start.after front).column = 1) (hopen : ['?', '<'] <+: code)
    (h : ¬closer <:+: code) : HidesRest o source front code
      (.ofPosition .unterminatedDisabled (Position.start.after front)) := by
  obtain ⟨rest, rfl, hfirst⟩ := first_of_not_infix (o := o) hcolumn hopen h
  obtain ⟨front', ss, ds, hsource', -, hcode, hreads⟩ := harrives.exists_readsAs
  obtain rfl : front = front' := List.append_cancel_right (hsource.symm.trans hsource')
  have hsplit : '?' :: rest = (first o (Position.start.after front) '?' rest).extent ++ [] := by
    rw [hfirst, extent_idle, List.append_nil]
  have hend : (Position.start.after front).after ('?' :: rest) =
      Position.start.after source.toList := by rw [← Position.after_append, hsource]
  -- with the disabled code, and with nothing in its place
  have hold : ReadsAs o .start source.toList (ss ++ [])
      (ds ++ [.ofPosition .unterminatedDisabled (Position.start.after front)]) := by
    rw [hsource]
    refine hreads _ _ _ (fun _ => .rfl) ((readsAs_iff_of_extent hsplit).2 ?_)
    rw [hfirst]
    exact ⟨[], [], rfl, rfl, readsAs_nil _ _⟩
  have hnew : ReadsAs o .start (String.ofList front).toList (ss ++ []) (ds ++ []) := by
    have hnothing (u : List Char) : PassesFor (u ++ []) (u ++ '?' :: rest) :=
      (Replaces.passesFor ⟨.ended, fun _ => rfl⟩).append (by simp) u
    rw [String.toList_ofList, ← List.append_nil front]
    exact hreads _ _ _ hnothing (readsAs_nil _ _)
  have hreports : (tokenize o (String.ofList front)).reports = ds := by
    rw [reports_tokenize, piecesOf, hnew.reports_eq, List.append_nil]
  refine ⟨?_, ?_, ?_, ?_, rfl⟩
  · rw [next_cons, skip_of_extent hsplit, next_of_rest_eq_nil rfl, hfirst, extent_idle, hend]
    rfl
  · have hsymbols : symbolsOf o source = symbolsOf o (String.ofList front) :=
      hold.symbols_eq.trans hnew.symbols_eq.symm
    rw [symbols_tokenize, Tokenized.inner, filter_symbols_tokenize, hsymbols]
  · rw [reports_tokenize, piecesOf, hold.reports_eq, hreports]
  · rw [hreports]
    exact hcode (List.cons_ne_nil _ _)

end

/-! ## Disabled code -/

/-- Disabled code is invisible. Where some later line starts with `?>`, line feeds may stand in
place of the disabled code up to the end of the first such line: all symbols and faults stay as they
are, but for the place of the end of the source if the disabled code goes up to there. Otherwise the
rest of the source is hidden, and there is one warning more. -/
theorem disabled_code_is_invisible {o : LexicalOptions} {source : String} {front code : List Char}
    (hsource : source.toList = front ++ code)
    (harrives : Arrives o source ⟨o, Position.start.after front, code⟩)
    (hcolumn : (Position.start.after front).column = 1) (hopen : ['?', '<'] <+: code) :
    (∀ region behind, code = region ++ behind → IsDisabled region behind →
      Tokenized.ShowsAs (behind = [])
        (tokenize o (String.ofList (front ++ lineFeeds region ++ behind))) (tokenize o source)) ∧
    (closer <:+: code → ∃ region behind, code = region ++ behind ∧ IsDisabled region behind) ∧
    (¬closer <:+: code → HidesRest o source front code
      (.ofPosition .unterminatedDisabled (Position.start.after front))) := by
  refine ⟨fun region behind hcode h => ?_, exists_isDisabled,
    hidesRest hsource harrives hcolumn hopen⟩
  subst hcode
  exact showsAs_lineFeeds hsource harrives hcolumn hopen h

/-- Behind a line with a word, disabled code with the opener of a comment and a quote in it, once
with an end and once without. -/
theorem disabled_code_is_invisible_behind_word :
    (Arrives {} "a\n?< (* '\n?> b\nc" ⟨{}, ⟨2, 2, 1⟩, "?< (* '\n?> b\nc".toList⟩ ∧
      IsDisabled "?< (* '\n?> b".toList "\nc".toList ∧
      Tokenized.ShowsAs ("\nc".toList = []) (tokenize {} "a\n\n\nc")
        (tokenize {} "a\n?< (* '\n?> b\nc")) ∧
    Arrives {} "a\n?< (* '\n b" ⟨{}, ⟨2, 2, 1⟩, "?< (* '\n b".toList⟩ ∧
      ¬closer <:+: "?< (* '\n b".toList ∧
      HidesRest {} "a\n?< (* '\n b" "a\n".toList "?< (* '\n b".toList
        (.ofPosition .unterminatedDisabled ⟨2, 2, 1⟩) := by
  have hended : Arrives {} "a\n?< (* '\n?> b\nc" ⟨{}, ⟨2, 2, 1⟩, "?< (* '\n?> b\nc".toList⟩ :=
    (show Arrives {} "a\n?< (* '\n?> b\nc" (.ofText {} _) from .start).behind.behind
  have hunended : Arrives {} "a\n?< (* '\n b" ⟨{}, ⟨2, 2, 1⟩, "?< (* '\n b".toList⟩ :=
    (show Arrives {} "a\n?< (* '\n b" (.ofText {} _) from .start).behind.behind
  have hfirst : IsFirst "?< (* '".toList "?< (* '\n?> b\nc".toList := by
    have hnot : ∀ n < 7, ¬closer <+: "?< (* '\n?> b\nc".toList.drop n := by decide
    intro a b hab
    by_contra hlt
    refine hnot a.length (Nat.lt_of_not_le hlt) ⟨b, ?_⟩
    rw [hab, List.append_assoc, List.drop_left]
  have hdisabled : IsDisabled "?< (* '\n?> b".toList "\nc".toList :=
    ⟨⟨"?< (* '".toList, " b".toList, by decide, hfirst, by decide⟩, .inr rfl⟩
  have hnone : ¬closer <:+: "?< (* '\n b".toList := by
    intro h
    have hmem : '>' ∈ "?< (* '\n b".toList := h.subset (by decide)
    revert hmem
    decide
  have htext : String.ofList ("a\n".toList ++ lineFeeds "?< (* '\n?> b".toList ++ "\nc".toList) =
      "a\n\n\nc" := String.toList_inj.1 (by rw [String.toList_ofList]; decide)
  have hplace : "a\n?< (* '\n?> b\nc".toList = "a\n".toList ++ "?< (* '\n?> b\nc".toList := by
    decide
  have hplace' : "a\n?< (* '\n b".toList = "a\n".toList ++ "?< (* '\n b".toList := by decide
  have hshows := (disabled_code_is_invisible hplace hended rfl (by decide)).1 _ _ (by decide)
    hdisabled
  have hhides := (disabled_code_is_invisible hplace' hunended rfl (by decide)).2.2 hnone
  rw [htext] at hshows
  exact ⟨⟨hended, hdisabled, hshows⟩, hunended, hnone, hhides⟩

end Modula
