import Modula.Proofs.Relocation
import Modula.Proofs.Stream

/-!
# Overwriting a symbol

A symbol of a source without lexical faults is overwritten with spaces. It is gone then, and all
other symbols are read as they were read before, at the places where they were.
-/

namespace Modula

/-- The characters of a text that stands at `p`, with spaces in place of those from the byte at
`start` up to the byte at `stop`. -/
def overwrite (start stop : Nat) (p : Position) : List Char → List Char
  | [] => []
  | c :: cs =>
    (if start ≤ p.offset ∧ p.offset < stop then ' ' else c) :: overwrite start stop (p.next c) cs

/-- The text with spaces in place of the characters of a symbol. -/
def Symbol.overwrittenIn (s : Symbol) (text : String) : String :=
  String.ofList (overwrite s.position.offset s.stop .start text.toList)

/-! ## Spaces -/

/-- As many spaces as there are characters. -/
def spacesFor (cs : List Char) : List Char := cs.map fun _ => ' '

/-- A text that spaces may stand for. Its characters take one byte each and end no line, so that the
spaces take as much room. A dot in front of another one would be a decimal point without it. -/
structure Overwritable (cs : List Char) : Prop where
  plain : ∀ c ∈ cs, c.utf8Size = 1 ∧ c ≠ '\n'
  head?_ne : cs.head? ≠ some '.'

theorem after_spacesFor {cs : List Char} (h : ∀ c ∈ cs, c.utf8Size = 1 ∧ c ≠ '\n')
    (p : Position) : p.after (spacesFor cs) = p.after cs := by
  induction cs generalizing p with
  | nil => rfl
  | cons c cs ih =>
    obtain ⟨⟨hsize, hline⟩, hplain⟩ := List.forall_mem_cons.1 h
    have hnext : p.next ' ' = p.next c := by
      rw [Position.next, Position.next, if_neg (by decide), if_neg hline, hsize]
      rfl
    rw [spacesFor, List.map_cons, Position.after_cons, Position.after_cons, hnext]
    exact ih hplain _

/-- In front of the spaces, no difference is made. -/
theorem Overwritable.passesFor {cs : List Char} (h : Overwritable cs) (before behind : List Char) :
    PassesFor (before ++ spacesFor cs ++ behind) (before ++ cs ++ behind) := by
  rw [List.append_assoc, List.append_assoc]
  cases cs with
  | nil => exact .rfl
  | cons c cs =>
    obtain ⟨⟨-, hline⟩, -⟩ := List.forall_mem_cons.1 h.plain
    have hspaces : PassesFor (spacesFor (c :: cs) ++ behind) (c :: cs ++ behind) :=
      ⟨by simp [spacesFor], by simp [hline], fun _ => rfl, by simp⟩
    exact hspaces.append h.head?_ne before

/-! ## Overwriting -/

section

variable {start stop : Nat} {p : Position}

theorem offset_lt_after (p : Position) (c : Char) (cs : List Char) :
    p.offset < (p.after (c :: cs)).offset :=
  (Position.before_after p (List.cons_ne_nil c cs)).offset

theorem overwrite_append (u v : List Char) : overwrite start stop p (u ++ v) =
    overwrite start stop p u ++ overwrite start stop (p.after u) v := by
  induction u generalizing p with
  | nil => rfl
  | cons c u ih =>
    rw [List.cons_append, overwrite, overwrite, ih]
    rfl

theorem overwrite_of_le_start {cs : List Char} (h : (p.after cs).offset ≤ start) :
    overwrite start stop p cs = cs := by
  induction cs generalizing p with
  | nil => rfl
  | cons c cs ih =>
    have hlt := offset_lt_after p c cs
    rw [overwrite, if_neg (by omega), ih h]

theorem overwrite_of_within {cs : List Char} (hstart : start ≤ p.offset)
    (hstop : (p.after cs).offset ≤ stop) : overwrite start stop p cs = spacesFor cs := by
  induction cs generalizing p with
  | nil => rfl
  | cons c cs ih =>
    have hlt := offset_lt_after p c cs
    have hnext := (Position.before_next p c).offset
    rw [overwrite, if_pos (by omega), ih (by omega) hstop]
    rfl

theorem overwrite_of_stop_le {cs : List Char} (h : stop ≤ p.offset) :
    overwrite start stop p cs = cs := by
  induction cs generalizing p with
  | nil => rfl
  | cons c cs ih =>
    have hnext := (Position.before_next p c).offset
    rw [overwrite, if_neg (by omega), ih (by omega)]

/-- Overwriting a symbol leaves alone what is in front of it and behind it. -/
theorem Symbol.toList_overwrittenIn {s : Symbol} {text : String} {before behind : List Char}
    (htext : text.toList = before ++ s.text.toList ++ behind)
    (hposition : s.position = Position.start.after before) :
    (s.overwrittenIn text).toList = before ++ spacesFor s.text.toList ++ behind := by
  have hstop : s.stop = (s.position.after s.text.toList).offset := s.offset_after_text.symm
  rw [Symbol.overwrittenIn, String.toList_ofList, htext, overwrite_append, overwrite_append,
    Position.after_append, ← hposition,
    overwrite_of_le_start (Nat.le_of_eq (congrArg Position.offset hposition.symm)),
    overwrite_of_within (Nat.le_refl _) (Nat.le_of_eq hstop.symm),
    overwrite_of_stop_le (Nat.le_of_eq hstop)]

end

/-! ## Pieces without faults -/

namespace Chunk

variable {o : LexicalOptions} {p : Position} {c : Char} {rest behind behind' : List Char}
  {t : Token}

/-- Nothing is dropped with a symbol without faults. -/
theorem extent_of_reports_eq_nil (ht : (first o p c rest).token? = some t)
    (hclean : (first o p c rest).reports = []) :
    (first o p c rest).extent = (first o p c rest).text := by
  obtain ⟨-, r, -, hfirst⟩ := exists_reading_of_token? ht
  rw [hfirst] at hclean ⊢
  have hnone : (c.isAlpha && ((c :: rest).drop r.length).head? == some '\x27') = false := by
    refine Bool.eq_false_iff.2 fun hdropped => ?_
    rw [ofReading] at hclean
    dsimp only at hclean
    rw [if_pos hdropped] at hclean
    exact List.append_ne_nil_of_right_ne_nil _ (List.cons_ne_nil _ _) hclean
  rw [extent, ofReading]
  dsimp only
  rw [hnone, if_neg Bool.false_ne_true, List.append_nil]

/-- With spaces in place of a symbol, a text without faults has the other symbols and still no
faults. -/
theorem ReadsAs.exists_overwritten {text : List Char} {earlier later : List Symbol} {s : Symbol}
    (h : ReadsAs o p text (earlier ++ s :: later) []) (hs : Overwritable s.text.toList) :
    ∃ before behind, text = before ++ s.text.toList ++ behind ∧ s.position = p.after before ∧
      ReadsAs o p (before ++ spacesFor s.text.toList ++ behind) (earlier ++ later) [] := by
  induction p, text using cut_induction o generalizing earlier with
  | nil p =>
    have hnil : earlier ++ s :: later = [] := h.symbols_eq.symm.trans (by simp [symbols])
    exact absurd hnil (by simp)
  | cons p c rest behind htext ih =>
    obtain ⟨found, faults, hfound, hfaults, hbehind⟩ := (readsAs_iff_of_extent htext).1 h
    obtain ⟨hclean, rfl⟩ := List.append_eq_nil_iff.1 hfaults.symm
    -- the symbol is behind this piece, which is read as before
    have hfront {front : List Symbol}
        (hearlier : earlier = ((first o p c rest).symbol? o).toList ++ front)
        (hfound : found = front ++ s :: later) : ∃ before behind,
          c :: rest = before ++ s.text.toList ++ behind ∧ s.position = p.after before ∧
            ReadsAs o p (before ++ spacesFor s.text.toList ++ behind) (earlier ++ later) [] := by
      obtain ⟨before, behind, rfl, hposition, hagain⟩ := ih (hfound ▸ hbehind)
      refine ⟨(first o p c rest).extent ++ before, behind, ?_, ?_, ?_⟩
      · rw [List.append_assoc, List.append_assoc, ← List.append_assoc before]
        exact htext
      · rw [Position.after_append, hposition]
      rw [hearlier, List.append_assoc, List.append_assoc, List.append_assoc,
        ← List.append_assoc before]
      have hreads := hagain.inFrontOf htext (hs.passesFor before behind)
      rwa [hclean] at hreads
    cases hsymbol : (first o p c rest).symbol? o with
    | none =>
      rw [hsymbol] at hfound hfront
      exact hfront rfl hfound.symm
    | some t =>
      rw [hsymbol] at hfound hfront
      cases earlier with
      | cons t' front =>
        obtain ⟨rfl, htail⟩ := List.cons.inj hfound
        exact hfront rfl htail.symm
      | nil =>
        obtain ⟨rfl, rfl⟩ := List.cons.inj hfound
        obtain ⟨token, htoken, rfl⟩ := Option.map_eq_some_iff.1 hsymbol
        have hextent := extent_of_reports_eq_nil (Option.filter_eq_some_iff.1 htoken).1 hclean
        rw [hextent] at htext hbehind
        rw [String.toList_ofList] at hs ⊢
        refine ⟨[], behind, htext, (within_first o p c rest).position_eq, ?_⟩
        refine (readsAs_blanks (by simp [spacesFor, isBlank])).2 ?_
        rwa [List.nil_append, after_spacesFor hs.plain]

end Chunk

/-! ## Sources without faults -/

section

variable {o : LexicalOptions} {text : String} {s : Symbol} {earlier later : List Symbol}

/-- A source without faults in which a symbol is overwritten has the other symbols, and no
faults. -/
theorem tokenize_overwrittenIn (hs : Overwritable s.text.toList)
    (hclean : (tokenize o text).reports = [])
    (hsymbols : (tokenize o text).symbols = earlier ++ s :: later) (htoken : s.token ≠ .endOfFile) :
    (tokenize o (s.overwrittenIn text)).symbols = earlier ++ later ∧
      (tokenize o (s.overwrittenIn text)).reports = [] := by
  rw [symbols_tokenize] at hsymbols
  rw [reports_tokenize] at hclean
  obtain rfl | ⟨front, e, rfl⟩ := List.eq_nil_or_concat later
  · have hend := (List.append_inj' hsymbols rfl).2
    rw [← (List.cons.inj hend).1] at htoken
    exact absurd rfl htoken
  rw [List.concat_eq_append] at hsymbols ⊢
  rw [← List.cons_append, ← List.append_assoc] at hsymbols
  obtain ⟨hfound, hend⟩ := List.append_inj' hsymbols rfl
  have hreads : Chunk.ReadsAs o .start text.toList (earlier ++ s :: front) [] := ⟨hfound, hclean⟩
  obtain ⟨before, behind, htext, hposition, hagain⟩ := hreads.exists_overwritten hs
  have hoverwritten := Symbol.toList_overwrittenIn htext hposition
  have hplace : Position.start.after (s.overwrittenIn text).toList =
      Position.start.after text.toList := by
    rw [hoverwritten, htext, Position.after_append, Position.after_append, after_spacesFor hs.plain,
      Position.after_append, Position.after_append]
  rw [symbols_tokenize, reports_tokenize, symbolsOf, piecesOf, hplace, hend, hoverwritten,
    ← List.append_assoc]
  exact ⟨congrArg (· ++ [e]) hagain.symbols_eq, hagain.reports_eq⟩

/-- So it is with the symbols that the grammar sees. -/
theorem semantic_overwrittenIn (hs : Overwritable s.text.toList)
    (hclean : (tokenize o text).reports = [])
    (hsymbols : (tokenize o text).semantic = earlier ++ s :: later)
    (htoken : s.token ≠ .endOfFile) :
    (tokenize o (s.overwrittenIn text)).semantic = earlier ++ later ∧
      (tokenize o (s.overwrittenIn text)).reports = [] := by
  obtain ⟨front, back, hall, rfl, hback⟩ := List.filter_eq_append_iff.1 hsymbols
  obtain ⟨trivia, later, rfl, htrivia, -, rfl⟩ := List.filter_eq_cons_iff.1 hback
  rw [← List.append_assoc] at hall
  obtain ⟨hagain, hreports⟩ := tokenize_overwrittenIn hs hclean hall htoken
  refine ⟨?_, hreports⟩
  rw [Tokenized.semantic, hagain, List.filter_append, List.filter_append,
    List.filter_eq_nil_iff.2 htrivia, List.append_nil]

end

end Modula
