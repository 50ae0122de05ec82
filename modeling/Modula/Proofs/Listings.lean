import Mathlib.Algebra.GroupWithZero.Nat
import Modula.Proofs.Carets
import Modula.Proofs.Gaps
import Modula.Proofs.Messages
import Modula.Proofs.NumberGrammar
import Modula.Proofs.Readings
import Modula.Proofs.Rendering

/-!
# The lines of a listing

A listing has a record for each symbol: its place and its token, and behind a tab its text. Every
record starts a line. It ends on the same line, unless the text of the symbol holds line feeds,
which are written as they are. Only literals, block comments and pragmas hold line feeds. So a
listing has a line for each symbol, and one more for each line feed in a symbol.
-/

namespace Modula

/-! ## Symbols of one line -/

/-- A token whose text may hold line feeds. -/
def Token.mayHoldLineFeed : Token → Bool
  | quotedString | malformedString | blockComment | malformedComment | pragma
  | malformedPragma => true
  | _ => false

/-- The rule takes no line feed from a text that stands at a position. -/
def Rule.KeepsLine (f : Rule) (p : Position) (cs : List Char) : Prop :=
  '\n' ∉ cs.take (f p cs).length

/-- The symbol holds a line feed only if its token may. -/
def Reading.KeepsLine (r : Reading) (cs : List Char) : Prop :=
  '\n' ∈ cs.take r.length → r.token.mayHoldLineFeed = true

theorem Reading.KeepsLine.of_notMem {r : Reading} {cs : List Char} (h : '\n' ∉ cs.take r.length) :
    r.KeepsLine cs :=
  fun hm => absurd hm h

theorem lineFeed_notMem_take_succ {c : Char} (hc : c ≠ '\n') {n : Nat} {cs : List Char}
    (h : '\n' ∉ cs.take n) : '\n' ∉ (c :: cs).take (n + 1) := by
  rw [List.take_succ_cons, List.mem_cons, not_or]
  exact ⟨hc.symm, h⟩

theorem lineFeed_notMem_take_add {n m : Nat} {cs : List Char} (hn : '\n' ∉ cs.take n)
    (hm : '\n' ∉ (cs.drop n).take m) : '\n' ∉ cs.take (n + m) := by
  rw [List.take_add, List.mem_append, not_or]
  exact ⟨hn, hm⟩

namespace Rule.KeepsLine

variable {p : Position} {c : Char} {cs : List Char}

theorem skip_zero : (Rule.skip 0).KeepsLine p cs := List.not_mem_nil

theorem skip_one (hc : c ≠ '\n') : (Rule.skip 1).KeepsLine p (c :: cs) :=
  lineFeed_notMem_take_succ hc List.not_mem_nil

theorem andThen {f g : Rule} (hf : f.KeepsLine p cs)
    (hg : g.KeepsLine (p.after (cs.take (f p cs).length)) (cs.drop (f p cs).length)) :
    (f.andThen g).KeepsLine p cs :=
  lineFeed_notMem_take_add hf hg

/-- A character, and behind it whatever the rule takes. -/
theorem skip_andThen {g : Rule} (hc : c ≠ '\n') (hg : ∀ q ds, g.KeepsLine q ds) :
    ((Rule.skip 1).andThen g).KeepsLine p (c :: cs) :=
  (skip_one hc).andThen (hg _ _)

end Rule.KeepsLine

/-! ### Numbers -/

namespace Number

theorem lineFeed_notMem_take_digitExtent (b : Base) (n : Nat) (cs : List Char) :
    '\n' ∉ cs.take ((digitExtent b n cs).1 - n) := by
  -- The scan goes on behind a digit and behind an apostrophe alike, with one more to take.
  have hlater {c : Char} {cs : List Char} {n : Nat} (hc : c ≠ '\n')
      (ih : '\n' ∉ cs.take ((digitExtent b (n + 1) cs).1 - (n + 1))) :
      '\n' ∉ (c :: cs).take ((digitExtent b (n + 1) cs).1 - n) := by
    have hle := le_digitExtent b (n + 1) cs
    rw [show (digitExtent b (n + 1) cs).1 - n = (digitExtent b (n + 1) cs).1 - (n + 1) + 1 by omega]
    exact lineFeed_notMem_take_succ hc ih
  fun_induction digitExtent b n cs with
  | case1 n =>
    rw [List.take_nil]
    exact List.not_mem_nil
  | case2 n c cs hdigit ih =>
    refine hlater ?_ ih
    rintro rfl
    rw [b.isDigit_lineFeed] at hdigit
    cases hdigit
  | case3 n cs _ _ ih => exact hlater (by decide) ih
  | case4 n cs =>
    rw [Nat.add_sub_cancel_left]
    exact lineFeed_notMem_take_succ (by decide) List.not_mem_nil
  | case5 n =>
    rw [Nat.sub_self]
    exact List.not_mem_nil

theorem keepsLine_digits (b : Base) (p : Position) (cs : List Char) : (digits b).KeepsLine p cs :=
  lineFeed_notMem_take_digitExtent b 0 cs

theorem keepsLine_someDigits (missing : Code) (p : Position) (cs : List Char) :
    (someDigits missing).KeepsLine p cs := by
  unfold Rule.KeepsLine someDigits
  split
  · exact keepsLine_digits .decimal p cs
  · exact List.not_mem_nil

theorem keepsLine_sign (p : Position) (cs : List Char) : sign.KeepsLine p cs := by
  unfold Rule.KeepsLine sign
  split
  · exact lineFeed_notMem_take_succ (by decide) List.not_mem_nil
  · exact lineFeed_notMem_take_succ (by decide) List.not_mem_nil
  · exact List.not_mem_nil

theorem keepsLine_exponent (p : Position) (cs : List Char) : exponent.KeepsLine p cs := by
  have hmarked {c : Char} (hc : c ≠ '\n') (cs : List Char) :
      ((Rule.skip 1).andThen sign |>.andThen (someDigits .exponentWithoutDigit)).KeepsLine p
        (c :: cs) :=
    (Rule.KeepsLine.skip_andThen hc keepsLine_sign).andThen (keepsLine_someDigits _ _ _)
  unfold Rule.KeepsLine exponent
  split
  · exact hmarked (by decide) _
  · exact hmarked (by decide) _
  · exact List.not_mem_nil

theorem keepsLine_fraction {cs : List Char} (p : Position) (h : startsFraction cs = true) :
    fraction.KeepsLine p cs := by
  cases cs with
  | nil => cases h
  | cons c cs =>
    have hc : c ≠ '\n' := eq_dot_of_startsFraction h ▸ by decide
    exact (Rule.KeepsLine.skip_andThen hc (keepsLine_someDigits _)).andThen
      (keepsLine_exponent _ _)

theorem keepsLine_based {b : Base} {t : Token} {c : Char} (hc : c ≠ '\n') (p : Position)
    (behind : List Char) : (based b t behind).2.KeepsLine p (c :: behind) := by
  unfold based
  split
  · exact .skip_andThen hc (keepsLine_digits b)
  · exact .skip_one hc

theorem keepsLine_kindOf (c : Char) (p : Position) (rest : List Char) :
    (kindOf c rest).2.KeepsLine p rest := by
  unfold kindOf
  split
  · unfold afterZero
    split
    · exact keepsLine_based (by decide) _ _
    · exact keepsLine_based (by decide) _ _
    · exact keepsLine_based (by decide) _ _
    · split
      · next h => exact keepsLine_fraction p h
      · split <;> exact .skip_zero
    · exact .skip_zero
  · unfold afterDigit
    split
    · next h => exact (keepsLine_digits _ _ _).andThen (keepsLine_fraction _ h)
    · exact keepsLine_digits _ _ _

/-- What follows the first digit of a number is taken by its rule, or is a letter or digit. -/
theorem keepsLine_read {c : Char} (hc : c.isDigit = true) (p : Position) (rest : List Char) :
    (Number.read p c rest).KeepsLine (c :: rest) := by
  have hne : c ≠ '\n' := by
    rintro rfl
    exact absurd hc (by decide)
  have hrule : (kindOf c rest).2.KeepsLine (p.next c) rest := keepsLine_kindOf c _ rest
  have hjunk (n : Nat) : '\n' ∉ (rest.drop n).take
      ((rest.drop n).takeWhile Char.isAlphanum).length := by
    rw [← List.prefix_iff_eq_take.1 (List.takeWhile_prefix Char.isAlphanum)]
    exact lineFeed_notMem_takeWhile (by decide) _
  refine .of_notMem ?_
  unfold kindOf at hrule
  unfold Number.read
  generalize (if c = '0' then afterZero rest else afterDigit rest) = kind at hrule ⊢
  obtain ⟨token, rule⟩ := kind
  dsimp only at hrule ⊢
  split
  · dsimp only
    rw [Nat.add_assoc, Nat.add_comm]
    exact lineFeed_notMem_take_succ hne (lineFeed_notMem_take_add hrule (hjunk _))
  · dsimp only
    rw [Nat.add_comm]
    exact lineFeed_notMem_take_succ hne hrule

end Number

/-! ### Other symbols -/

theorem Word.keepsLine_read {o : LexicalOptions} {c : Char} (hc : c ≠ '\n') (p : Position)
    (rest : List Char) : (Word.read o p c rest).KeepsLine (c :: rest) := by
  refine .of_notMem (lineFeed_notMem_take_succ hc ?_)
  rw [← List.prefix_iff_eq_take.1 (List.takeWhile_prefix (continues o))]
  exact lineFeed_notMem_takeWhile (by simp [continues, LexicalOptions.allowsSeparator]) rest

theorem Comment.keepsLine_readLine {c : Char} (hc : c ≠ '\n') (rest : List Char) :
    (readLine rest).KeepsLine (c :: rest) := by
  refine .of_notMem (lineFeed_notMem_take_succ hc ?_)
  rw [← List.prefix_iff_eq_take.1 (List.takeWhile_prefix (· != '\n'))]
  exact lineFeed_notMem_takeWhile rfl rest

theorem Quoted.mayHoldLineFeed_read (p : Position) (quote : Char) (rest : List Char) :
    (Quoted.read p quote rest).token.mayHoldLineFeed = true := by
  obtain h | h := token_read p quote rest <;> rw [h] <;> rfl

theorem Comment.mayHoldLineFeed_readBlock (p : Position) (body : List Char) :
    (readBlock p body).token.mayHoldLineFeed = true := by
  rw [token_readBlock]
  split <;> rfl

theorem Comment.mayHoldLineFeed_readPragma (p : Position) (body : List Char) :
    (readPragma p body).token.mayHoldLineFeed = true := by
  unfold readPragma
  rcases pragmaExtent 0 body with ⟨n, closed⟩
  cases closed <;> rfl

theorem Special.keepsLine_read? {p : Position} {c : Char} {rest : List Char} {r : Reading}
    (h : read? c rest = some r) : r.KeepsLine (c :: rest) := by
  have hspecial : ∀ t : Token, t.isSpecialSymbol = true → t.hasLexeme = false ∧
      '\n' ∉ (t.spelling?.getD "").toList := by decide
  obtain ⟨hlexeme, hspelling⟩ := hspecial _ (isSpecialSymbol_of_read? h).1
  refine .of_notMem ?_
  rcases (within_read? (p := p) h).spells with hs | hs
  · rw [hlexeme] at hs
    cases hs
  · rwa [hs, Option.getD_some, String.toList_ofList] at hspelling

/-- A symbol at the start of a text holds a line feed only if its token may. -/
theorem Chunk.keepsLine_read? {o : LexicalOptions} {p : Position} {c : Char} {rest : List Char}
    {r : Reading} (h : read? o p c rest = some r) : r.KeepsLine (c :: rest) := by
  unfold read? at h
  split at h
  · next hc =>
    have hne : c ≠ '\n' := by
      rintro rfl
      simp [LexicalOptions.allowsSeparator] at hc
    cases h
    exact Word.keepsLine_read hne p rest
  · split at h
    · next hc =>
      cases h
      exact Number.keepsLine_read hc p rest
    · split at h
      · cases h; exact fun _ => Quoted.mayHoldLineFeed_read p _ _
      · cases h; exact fun _ => Quoted.mayHoldLineFeed_read p _ _
      · cases h; exact Comment.keepsLine_readLine (by decide) rest
      · cases h; exact fun _ => Comment.mayHoldLineFeed_readBlock p _
      · cases h; exact fun _ => Comment.mayHoldLineFeed_readPragma p _
      · exact Special.keepsLine_read? (p := p) h

/-- A symbol of a source holds a line feed only if its token may. -/
theorem mayHoldLineFeed_of_mem {o : LexicalOptions} {source : String} {s : Symbol}
    (hs : s ∈ (tokenize o source).symbols) (h : '\n' ∈ s.text.toList) :
    s.token.mayHoldLineFeed = true := by
  rw [symbols_tokenize] at hs
  rcases List.mem_append.1 hs with hs | hs
  · obtain ⟨k, hk, hsymbol⟩ := List.mem_filterMap.1 hs
    obtain ⟨t, hkept, rfl⟩ := Option.map_eq_some_iff.1 hsymbol
    have ht : k.token? = some t := (Option.filter_eq_some_iff.1 hkept).1
    obtain ⟨front, c, rest, -, rfl⟩ := exists_first_of_mem_piecesOf hk
    obtain ⟨-, r, hr, hfirst⟩ := Chunk.exists_reading_of_token? ht
    rw [hfirst] at ht h
    rw [String.toList_ofList] at h
    cases ht
    exact Chunk.keepsLine_read? hr h
  · rw [List.mem_singleton.1 hs] at h
    cases h

/-! ## Records -/

namespace Symbol

/-- What stands in front of the text of a symbol: its place and its token. -/
def heading (s : Symbol) : String := s!"{s.line}:{s.column}\t{s.token}"

/-- What is listed of a symbol. -/
def record (s : Symbol) : String :=
  if s.text.isEmpty then s.heading else s.heading ++ "\t" ++ s.text

/-- The number of line feeds in a symbol. -/
def lineFeeds (s : Symbol) : Nat := s.text.toList.count '\n'

/-- The lines of the record of a symbol, each with its line feed. -/
def lines (s : Symbol) : List (List Char) := Text.cutLines (s.record.toList ++ ['\n'])

theorem lacks_heading (s : Symbol) : Text.Lacks s.heading '\n' := by
  have hc : Quoted.isControl '\n' = true := by decide
  simp only [heading, Text.lacks_append, Text.lacks_toString]
  exact ⟨⟨⟨⟨Text.lacks_ofNat hc _, by decide⟩, Text.lacks_ofNat hc _⟩, by decide⟩,
    s.token.lacks_name hc⟩

theorem exists_record_eq (s : Symbol) :
    ∃ behind : List Char, s.record.toList = s.heading.toList ++ behind := by
  unfold record
  split
  · exact ⟨[], (List.append_nil _).symm⟩
  · exact ⟨'\t' :: s.text.toList, by simp [List.append_assoc]⟩

theorem count_record (s : Symbol) : s.record.toList.count '\n' = s.lineFeeds := by
  have hheading := List.count_eq_zero.2 s.lacks_heading
  unfold record lineFeeds
  split
  · next h => simp [hheading, String.isEmpty_iff.1 h]
  · simp [List.count_append, hheading]

theorem lineFeeds_eq_zero {s : Symbol} : s.lineFeeds = 0 ↔ '\n' ∉ s.text.toList :=
  List.count_eq_zero

theorem length_lines (s : Symbol) : s.lines.length = 1 + s.lineFeeds := by
  have hlength := (Text.cutLines_append (.inr ⟨s.record.toList, rfl⟩) []).2
  rw [List.count_append, List.count_singleton_self, count_record] at hlength
  exact hlength.trans (Nat.add_comm ..)

theorem lines_eq_of_lineFeeds {s : Symbol} (h : s.lineFeeds = 0) :
    s.lines = [s.record.toList ++ ['\n']] := by
  have hlength := s.length_lines
  rw [h] at hlength
  obtain ⟨line, hline⟩ := List.length_eq_one_iff.1 hlength
  have hflatten := Text.flatten_cutLines (s.record.toList ++ ['\n'])
  rw [← lines, hline, List.flatten_singleton] at hflatten
  rw [hline, hflatten]

end Symbol

/-- A text without a line feed goes in front of the first line of what is behind it. -/
theorem Text.cutLines_append_of_notMem {a b : List Char} (ha : '\n' ∉ a) (hb : b ≠ []) :
    ∃ first later, Text.cutLines (a ++ b) = (a ++ first) :: later := by
  induction a with
  | nil =>
    cases hcut : Text.cutLines b with
    | nil =>
      have hflatten := Text.flatten_cutLines b
      rw [hcut] at hflatten
      exact absurd hflatten.symm hb
    | cons first later => exact ⟨first, later, hcut⟩
  | cons c a ih =>
    rw [List.mem_cons, not_or] at ha
    obtain ⟨first, later, hcut⟩ := ih ha.2
    refine ⟨first, later, ?_⟩
    change Text.consLine c (Text.cutLines (a ++ b)) = _
    rw [hcut, Text.consLine, if_neg (Ne.symm ha.1)]
    rfl

/-- These are the lines that a symbol takes in a listing. -/
structure Symbol.Fills (s : Symbol) (lines : List (List Char)) : Prop where
  /-- They are what is listed of the symbol and a line feed. -/
  flatten_eq : lines.flatten = s.record.toList ++ ['\n']
  /-- The first one starts with the place and the token. -/
  heading : ∃ behind more, lines = (s.heading.toList ++ behind) :: more
  /-- There is one more for each line feed in the symbol. -/
  length_eq : lines.length = 1 + s.lineFeeds

theorem Symbol.fills_lines (s : Symbol) : s.Fills s.lines where
  flatten_eq := Text.flatten_cutLines _
  heading := by
    obtain ⟨behind, hrecord⟩ := s.exists_record_eq
    obtain ⟨first, more, hcut⟩ :=
      Text.cutLines_append_of_notMem s.lacks_heading (b := behind ++ ['\n']) (by simp)
    refine ⟨first, more, ?_⟩
    rw [lines, hrecord, List.append_assoc, hcut]
  length_eq := s.length_lines

/-! ## Listings -/

theorem listing_eq (t : Tokenized) :
    t.listing = String.join (t.symbols.map fun s => s.record ++ "\n") := by
  unfold Tokenized.listing
  congr 2
  funext s
  unfold Symbol.record
  split <;> rfl

theorem cutLines_join (symbols : List Symbol) :
    Text.cutLines (String.join (symbols.map fun s => s.record ++ "\n")).toList =
      symbols.flatMap Symbol.lines := by
  induction symbols with
  | nil => rfl
  | cons s symbols ih =>
    have hends : Text.EndsLine (s.record.toList ++ ['\n']) := .inr ⟨_, rfl⟩
    rw [List.map_cons, String.join_cons, String.toList_append, String.toList_append,
      List.flatMap_cons, ← ih]
    exact (Text.cutLines_append hends _).1

theorem length_flatMap_lines (symbols : List Symbol) :
    (symbols.flatMap Symbol.lines).length =
      symbols.length + (symbols.map Symbol.lineFeeds).sum := by
  induction symbols with
  | nil => rfl
  | cons s symbols ih =>
    rw [List.flatMap_cons, List.length_append, ih, s.length_lines, List.map_cons, List.sum_cons,
      List.length_cons]
    omega

theorem flatMap_lines_of_lineFeeds {symbols : List Symbol} (h : ∀ s ∈ symbols, s.lineFeeds = 0) :
    symbols.flatMap Symbol.lines = symbols.map fun s => s.record.toList ++ ['\n'] := by
  induction symbols with
  | nil => rfl
  | cons s symbols ih =>
    obtain ⟨hs, hsymbols⟩ := List.forall_mem_cons.1 h
    rw [List.flatMap_cons, List.map_cons, ih hsymbols, Symbol.lines_eq_of_lineFeeds hs]
    rfl

/-- Every symbol starts a line of the listing, and takes one line more for each line feed in it.
So a listing has exactly one line for each symbol if no symbol holds a line feed, which only
literals, block comments and pragmas may. -/
theorem lines_of_listing (o : LexicalOptions) (source : String) :
    let t := tokenize o source
    let lines := Text.cutLines t.listing.toList
    lines.length = t.symbols.length + (t.symbols.map Symbol.lineFeeds).sum ∧
    (∀ earlier s later, t.symbols = earlier ++ s :: later →
      ∃ before own behind, lines = before ++ own ++ behind ∧
        before.length = earlier.length + (earlier.map Symbol.lineFeeds).sum ∧ s.Fills own) ∧
    (lines.length = t.symbols.length ↔ ∀ s ∈ t.symbols, '\n' ∉ s.text.toList) ∧
    ((∀ s ∈ t.symbols, '\n' ∉ s.text.toList) →
      lines = t.symbols.map fun s => s.record.toList ++ ['\n']) ∧
    ∀ s ∈ t.symbols, '\n' ∈ s.text.toList → s.token.mayHoldLineFeed = true := by
  intro t lines
  have hlines : lines = t.symbols.flatMap Symbol.lines := by
    change Text.cutLines t.listing.toList = _
    rw [listing_eq, cutLines_join]
  have hlength := length_flatMap_lines t.symbols
  rw [← hlines] at hlength
  refine ⟨hlength, ?_, ?_, ?_, fun s hs => mayHoldLineFeed_of_mem hs⟩
  · intro earlier s later hsymbols
    refine ⟨earlier.flatMap Symbol.lines, s.lines, later.flatMap Symbol.lines, ?_,
      length_flatMap_lines earlier, s.fills_lines⟩
    rw [hlines, hsymbols, List.flatMap_append, List.flatMap_cons, List.append_assoc]
  · rw [hlength, Nat.add_eq_left, List.sum_eq_zero_iff_forall_eq_nat, List.forall_mem_map]
    exact forall₂_congr fun _ _ => Symbol.lineFeeds_eq_zero
  · intro h
    rw [hlines]
    exact flatMap_lines_of_lineFeeds fun s hs => Symbol.lineFeeds_eq_zero.2 (h s hs)

/-- A pragma that goes on behind a line feed takes two lines. -/
theorem not_forall_one_line_per_symbol :
    ¬ ∀ (o : LexicalOptions) (source : String),
      (Text.cutLines (tokenize o source).listing.toList).length =
        (tokenize o source).symbols.length :=
  fun h => absurd (h {} "<* a\nb *>") (by decide +kernel)

end Modula
