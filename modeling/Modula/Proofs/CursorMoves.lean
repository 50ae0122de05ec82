import Modula.Proofs.Bytes
import Modula.Source.Basic
import Modula.Text.Cursor

/-!
# Moves of a cursor

A cursor keeps the line it is in and where that line starts. Every move is made of moves over one
byte, so what one such move keeps is kept by all of them, from wherever they set out. Whether a
cursor stands between two characters is another matter: it need not after a move over some bytes,
but the moves over characters, over blanks and to lines do not end inside of a character.
-/

namespace Modula

namespace Text

variable {text : String} {i : Nat} {b : UInt8}

/-- A line starts at the offset: there is nothing in front of it, or a line feed. -/
def StartsLine (text : String) : Nat → Prop
  | 0 => True
  | i + 1 => (bytes text)[i]? = some lineFeed

/-- At the offset starts a line whose first bytes are these two. -/
structure OpensLine (text : String) (first second : UInt8) (i : Nat) : Prop where
  startsLine : StartsLine text i
  first_eq : (bytes text)[i]? = some first
  second_eq : (bytes text)[i + 1]? = some second

theorem length_bytes (text : String) : (bytes text).length = text.utf8ByteSize := rfl

theorem lineAt_succ (h : (bytes text)[i]? = some b) :
    lineAt text (i + 1) = lineAt text i + if b = lineFeed then 1 else 0 := by
  rw [lineAt, lineAt, List.take_add_one, h, Option.toList_some, List.count_append,
    List.count_singleton, Nat.add_assoc]
  congr 2
  simp only [beq_iff_eq]

theorem lineAt_le (text : String) (i : Nat) : lineAt text i ≤ i + 1 := by
  have hcount := List.count_le_length (a := lineFeed) (l := (bytes text).take i)
  have hlength := List.length_take_le i (bytes text)
  rw [lineAt]
  omega

/-- The column counts from where the line starts. -/
theorem columnAt_eq {first : Nat} (hstart : StartsLine text first) (hle : first ≤ i)
    (hi : i ≤ text.utf8ByteSize)
    (hne : ∀ j, first ≤ j → j < i → (bytes text)[j]? ≠ some lineFeed) :
    columnAt text i = i - first + 1 := by
  have hsplit : (bytes text).take i =
      (bytes text).take first ++ ((bytes text).drop first).take (i - first) := by
    rw [← List.take_add, Nat.add_sub_cancel' hle]
  have hline : ∀ b ∈ (((bytes text).drop first).take (i - first)).reverse, b != lineFeed := by
    intro b hb
    obtain ⟨j, hj, rfl⟩ := List.mem_iff_getElem.1 (List.mem_reverse.1 hb)
    rw [List.length_take] at hj
    rw [List.getElem_take, List.getElem_drop, bne_iff_ne]
    intro hb
    exact hne (first + j) (by omega) (by omega) (List.getElem?_eq_some_iff.2 ⟨_, hb⟩)
  have hbefore : ((bytes text).take first).reverse.takeWhile (· != lineFeed) = [] := by
    cases first with
    | zero => rfl
    | succ k =>
      rw [List.take_add_one, hstart, Option.toList_some, List.reverse_append]
      rfl
  rw [columnAt, hsplit, List.reverse_append, List.takeWhile_append_of_pos hline, hbefore,
    List.append_nil, List.length_reverse, List.length_take, List.length_drop, length_bytes]
  omega

end Text

/-- Behind the bytes of a source stands a zero, and more of them. -/
theorem Source.toList_padded (s : Source) :
    s.padded.data.toList =
      Text.bytes s.text ++ 0 :: List.replicate (s.paddedSize - s.size - 1) 0 := by
  have hsize : s.size < s.paddedSize := by
    unfold paddedSize
    omega
  have hzeros : s.paddedSize - s.size = (s.paddedSize - s.size - 1) + 1 := by omega
  rw [padded, Array.toList_append, Array.toList_replicate, hzeros, List.replicate_succ,
    Nat.add_sub_cancel]
  rfl

namespace Cursor

variable {text : String} {c : Cursor}

/-! ## Bookkeeping -/

/-- What the cursor keeps is right for its offset. -/
structure Exact (text : String) (c : Cursor) : Prop where
  bytes_eq : c.bytes = text.toUTF8
  pos_le : c.pos ≤ text.utf8ByteSize
  line_eq : c.line = Text.lineAt text c.pos
  /-- The line starts at or before the offset, and no other line starts between. -/
  lineStart_le : c.lineStart ≤ c.pos
  startsLine : Text.StartsLine text c.lineStart
  lineFeed_ne : ∀ i, c.lineStart ≤ i → i < c.pos → (Text.bytes text)[i]? ≠ some lineFeed

theorem exact_ofText (text : String) : (ofText text).Exact text where
  bytes_eq := rfl
  pos_le := Nat.zero_le _
  line_eq := rfl
  lineStart_le := Nat.le_refl _
  startsLine := trivial
  lineFeed_ne _ _ h := absurd h (Nat.not_lt_zero _)

namespace Exact

theorem isAtEnd_iff (h : c.Exact text) : c.isAtEnd = true ↔ c.pos = text.utf8ByteSize := by
  have hle := h.pos_le
  rw [isAtEnd, decide_eq_true_eq, h.bytes_eq]
  change text.utf8ByteSize ≤ c.pos ↔ _
  omega

theorem lt_of_isAtEnd (h : c.Exact text) (hend : c.isAtEnd = false) :
    c.pos < text.utf8ByteSize := by
  have hne : c.pos ≠ text.utf8ByteSize := fun heq => by
    rw [h.isAtEnd_iff.2 heq] at hend
    cases hend
  exact Nat.lt_of_le_of_ne h.pos_le hne

theorem byteAt_eq (h : c.Exact text) (i : Nat) :
    c.byteAt i = ((Text.bytes text)[i]?).getD 0 := by
  rw [byteAt]
  split
  · next hi =>
    rw [h.bytes_eq] at hi
    have hget : (Text.bytes text)[i]? = some (text.toUTF8[i]) :=
      List.getElem?_eq_some_iff.2 ⟨hi, rfl⟩
    rw [hget, Option.getD_some]
    congr 1
    exact h.bytes_eq
  · next hi =>
    rw [h.bytes_eq, Nat.not_lt] at hi
    have hget : (Text.bytes text)[i]? = none := List.getElem?_eq_none hi
    rw [hget, Option.getD_none]

theorem getElem?_pos (h : c.Exact text) (hend : c.isAtEnd = false) :
    (Text.bytes text)[c.pos]? = some c.current := by
  have hlt := h.lt_of_isAtEnd hend
  rw [current, h.byteAt_eq, List.getElem?_eq_getElem (l := Text.bytes text) hlt, Option.getD_some]

/-- A move over one byte keeps everything right. -/
theorem advance (h : c.Exact text) : c.advance.Exact text := by
  unfold Cursor.advance
  split
  · exact h
  · next hend =>
    rw [Bool.not_eq_true] at hend
    have hlt := h.lt_of_isAtEnd hend
    have hget := h.getElem?_pos hend
    have hline := Text.lineAt_succ hget
    rw [← h.line_eq] at hline
    split
    · next hcurrent =>
      change c.current = lineFeed at hcurrent
      rw [hcurrent] at hget
      exact {
        bytes_eq := h.bytes_eq
        pos_le := hlt
        line_eq := by rw [hline, if_pos hcurrent]
        lineStart_le := Nat.le_refl _
        startsLine := hget
        lineFeed_ne := fun i hfrom hto => absurd hto (Nat.not_lt.2 hfrom) }
    · next hcurrent =>
      change ¬c.current = lineFeed at hcurrent
      exact {
        bytes_eq := h.bytes_eq
        pos_le := hlt
        line_eq := by rw [hline, if_neg hcurrent]; rfl
        lineStart_le := Nat.le_succ_of_le h.lineStart_le
        startsLine := h.startsLine
        lineFeed_ne := fun i hfrom hto => by
          obtain hto | rfl := Nat.lt_or_eq_of_le (Nat.le_of_lt_succ hto)
          · exact h.lineFeed_ne i hfrom hto
          · rw [hget, ne_eq, Option.some_inj]
            exact hcurrent }

theorem advanceBy (h : c.Exact text) (n : Nat) : (c.advanceBy n).Exact text := by
  induction n generalizing c with
  | zero => exact h
  | succ n ih =>
    unfold Cursor.advanceBy
    split
    · exact h
    · exact ih h.advance

theorem advanceChar (h : c.Exact text) : c.advanceChar.Exact text := h.advanceBy _

theorem advanceWhile (h : c.Exact text) (p : UInt8 → Bool) : (c.advanceWhile p).Exact text := by
  fun_induction Cursor.advanceWhile p c with
  | case1 c _ ih => exact ih h.advance
  | case2 => exact h

theorem skipBlanks (h : c.Exact text) : c.skipBlanks.Exact text := h.advanceWhile _

theorem toLineEnd (h : c.Exact text) : c.toLineEnd.Exact text := h.advanceWhile _

theorem toLineStarting (h : c.Exact text) (first second : UInt8) :
    (c.toLineStarting first second).2.Exact text := by
  fun_induction Cursor.toLineStarting first second c with
  | case1 c hend next hmatch => exact h.toLineEnd.advance
  | case2 c hend next hmatch ih => exact ih h.toLineEnd.advance
  | case3 c hend => exact h.toLineEnd

theorem column_eq (h : c.Exact text) : c.column = Text.columnAt text c.pos :=
  (Text.columnAt_eq h.startsLine h.lineStart_le h.pos_le h.lineFeed_ne).symm

theorem isAtLineStart_iff (h : c.Exact text) :
    c.isAtLineStart = true ↔ Text.StartsLine text c.pos := by
  rw [isAtLineStart, beq_iff_eq]
  constructor
  · intro hpos
    rw [hpos]
    exact h.startsLine
  · intro hstarts
    cases hpos : c.pos with
    | zero =>
      have hle := h.lineStart_le
      omega
    | succ i =>
      rw [hpos] at hstarts
      -- A line feed in front of the cursor is not in its line, so the line starts behind it.
      by_contra hne
      have hle := h.lineStart_le
      exact h.lineFeed_ne i (by omega) (by omega) hstarts

end Exact

/-- What the cursor shows is what stands in the text. -/
structure Shows (text : String) (c : Cursor) : Prop where
  current_eq : c.current = ((Text.bytes text)[c.pos]?).getD 0
  peek_eq : c.peek = ((Text.bytes text)[c.pos + 1]?).getD 0
  peekAfter_eq : c.peekAfter = ((Text.bytes text)[c.pos + 2]?).getD 0
  isAtEnd_iff : c.isAtEnd = true ↔ c.pos = text.utf8ByteSize
  column_eq : c.column = Text.columnAt text c.pos
  lineStart_add_column : c.lineStart + c.column = c.pos + 1
  isAtLineStart_iff : c.isAtLineStart = true ↔ Text.StartsLine text c.pos
  /-- Up to the end of the text, and there too, bytes are read from the layout in memory. -/
  padded_eq : ∀ i ≤ text.utf8ByteSize, (Source.padded ⟨text⟩).data.toList[i]? = some (c.byteAt i)

theorem Exact.shows (h : c.Exact text) : c.Shows text where
  current_eq := h.byteAt_eq _
  peek_eq := h.byteAt_eq _
  peekAfter_eq := h.byteAt_eq _
  isAtEnd_iff := h.isAtEnd_iff
  column_eq := h.column_eq
  lineStart_add_column := by
    have hle := h.lineStart_le
    unfold column
    omega
  isAtLineStart_iff := h.isAtLineStart_iff
  padded_eq i hi := by
    change i ≤ (Text.bytes text).length at hi
    rw [h.byteAt_eq, Source.toList_padded]
    obtain hi | rfl := Nat.lt_or_eq_of_le hi
    · rw [List.getElem?_append_left hi, List.getElem?_eq_getElem hi, Option.getD_some]
    · rw [List.getElem?_append_right (Nat.le_refl _), Nat.sub_self, List.getElem?_cons_zero,
        List.getElem?_eq_none (Nat.le_refl _), Option.getD_none]

/-! ## Lines that start with two bytes -/

theorem byteAt_advance (c : Cursor) (i : Nat) : c.advance.byteAt i = c.byteAt i := by
  rw [byteAt, byteAt]
  simp only [bytes_advance]

/-- How far a move over bytes that satisfy a condition goes. -/
theorem advanceWhile_spec (p : UInt8 → Bool) (c : Cursor) :
    c.pos ≤ (c.advanceWhile p).pos ∧
    (∀ i, c.pos ≤ i → i < (c.advanceWhile p).pos → p (c.byteAt i) = true) ∧
    ((c.advanceWhile p).isAtEnd = false → p (c.advanceWhile p).current = false) := by
  fun_induction advanceWhile p c with
  | case1 c h ih =>
    obtain ⟨hle, hbetween, hstop⟩ := ih
    rw [pos_advance h.1] at hle hbetween
    refine ⟨by omega, fun i hfrom hto => ?_, hstop⟩
    obtain hfrom | rfl := Nat.lt_or_eq_of_le hfrom
    · rw [← byteAt_advance]
      exact hbetween i hfrom hto
    · exact h.2
  | case2 c h =>
    refine ⟨Nat.le_refl _, fun i hfrom hto => absurd hto (Nat.not_lt.2 hfrom), fun hend => ?_⟩
    rw [not_and, Bool.not_eq_true] at h
    exact h hend

theorem advance_eq (hend : c.isAtEnd = false) (hcurrent : c.current ≠ 10) :
    c.advance = { c with pos := c.pos + 1 } := by
  rw [advance, hend, if_neg Bool.false_ne_true, if_neg hcurrent]

/-- A move to the end of a line changes the offset alone. -/
theorem toLineEnd_eq (c : Cursor) : c.toLineEnd = { c with pos := c.toLineEnd.pos } := by
  unfold toLineEnd
  fun_induction advanceWhile (· != 10) c with
  | case1 c h ih =>
    rw [advance_eq h.1 (bne_iff_ne.1 h.2)] at ih ⊢
    exact ih
  | case2 c => rfl

/-- The second cursor is the first one moved in front of the next line feed, or to the end. -/
structure LineEnd (text : String) (c d : Cursor) : Prop where
  eq_pos : d = { c with pos := d.pos }
  pos_le : c.pos ≤ d.pos
  lineFeed_ne : ∀ i, c.pos ≤ i → i < d.pos → (Text.bytes text)[i]? ≠ some lineFeed
  getElem?_pos : d.isAtEnd = false → (Text.bytes text)[d.pos]? = some lineFeed

theorem Exact.lineEnd (h : c.Exact text) : LineEnd text c c.toLineEnd := by
  obtain ⟨hle, hbetween, hstop⟩ := advanceWhile_spec (· != 10) c
  refine ⟨c.toLineEnd_eq, hle, fun i hfrom hto hget => ?_, fun hend => ?_⟩
  · have hne := hbetween i hfrom hto
    rw [h.byteAt_eq, hget] at hne
    cases hne
  · have hcurrent : c.toLineEnd.current = lineFeed := bne_eq_false_iff_eq.1 (hstop hend)
    rw [h.toLineEnd.getElem?_pos hend, hcurrent]

/-- What comes of looking for a line that starts with two bytes, from an offset on. -/
inductive Seeks (text : String) (first second : UInt8) (start : Nat) : Bool × Cursor → Prop where
  /-- The cursor stands in front of the first such line behind the offset. -/
  | found {d : Cursor} (later : start < d.pos) (opens : Text.OpensLine text first second d.pos)
      (no_earlier : ∀ i, start < i → i < d.pos → ¬Text.OpensLine text first second i) :
      Seeks text first second start (true, d)
  /-- There is none, and the cursor stands at the end. -/
  | missed {d : Cursor} (atEnd : d.pos = text.utf8ByteSize)
      (none_later : ∀ i, start < i → ¬Text.OpensLine text first second i) :
      Seeks text first second start (false, d)

variable {first second : UInt8} {start : Nat}

theorem Seeks.of_later {later : Nat} {r : Bool × Cursor} (h : Seeks text first second later r)
    (hle : start ≤ later)
    (hnone : ∀ i, start < i → i ≤ later → ¬Text.OpensLine text first second i) :
    Seeks text first second start r := by
  cases h with
  | found hlater hopens hno =>
    refine .found (Nat.lt_of_le_of_lt hle hlater) hopens fun i hfrom hto => ?_
    rcases Nat.lt_or_ge later i with hi | hi
    · exact hno i hi hto
    · exact hnone i hfrom hi
  | missed hend hno =>
    refine .missed hend fun i hfrom => ?_
    rcases Nat.lt_or_ge later i with hi | hi
    · exact hno i hi
    · exact hnone i hfrom hi

theorem Seeks.found_iff {r : Bool × Cursor} (h : Seeks text first second start r) :
    r.1 = true ↔ ∃ i, start < i ∧ Text.OpensLine text first second i := by
  cases h with
  | found hlater hopens hno => exact ⟨fun _ => ⟨_, hlater, hopens⟩, fun _ => rfl⟩
  | missed hend hno => exact ⟨nofun, fun ⟨i, hi, hopens⟩ => absurd hopens (hno i hi)⟩

/-- No line starts between the cursor and the end of its line. -/
theorem Exact.not_startsLine (h : c.Exact text) {i : Nat} (hfrom : c.pos < i)
    (hto : i ≤ c.toLineEnd.pos) : ¬Text.StartsLine text i := by
  obtain ⟨k, rfl⟩ : ∃ k, i = k + 1 := ⟨i - 1, by omega⟩
  exact h.lineEnd.lineFeed_ne k (by omega) (by omega)

/-- A byte that is not zero is read only where it stands. -/
theorem Exact.byteAt_iff (h : c.Exact text) {b : UInt8} (hb : b ≠ 0) (i : Nat) :
    c.byteAt i = b ↔ (Text.bytes text)[i]? = some b := by
  rw [h.byteAt_eq]
  cases (Text.bytes text)[i]? with
  | none => simpa using hb.symm
  | some d => simp

theorem Exact.seeks (h : c.Exact text) (hfirst : first ≠ 0) (hsecond : second ≠ 0) :
    Seeks text first second c.pos (c.toLineStarting first second) := by
  fun_induction Cursor.toLineStarting first second c with
  | case1 c hend next hmatch =>
    have hpos : next.pos = c.toLineEnd.pos + 1 := pos_advance hend
    have hle := h.lineEnd.pos_le
    have hnext : next.Exact text := h.toLineEnd.advance
    refine .found (by omega) ⟨?_, ?_, ?_⟩ fun i hfrom hto hopens => ?_
    · rw [hpos]
      exact h.lineEnd.getElem?_pos hend
    · exact (hnext.byteAt_iff hfirst _).1 hmatch.1
    · exact (hnext.byteAt_iff hsecond _).1 hmatch.2
    · exact h.not_startsLine hfrom (by omega) hopens.startsLine
  | case2 c hend next hmatch ih =>
    have hpos : next.pos = c.toLineEnd.pos + 1 := pos_advance hend
    have hle := h.lineEnd.pos_le
    have hnext : next.Exact text := h.toLineEnd.advance
    refine (ih hnext).of_later (by omega) fun i hfrom hto hopens => ?_
    obtain hto | rfl := Nat.lt_or_eq_of_le hto
    · exact h.not_startsLine hfrom (by omega) hopens.startsLine
    · exact hmatch ⟨(hnext.byteAt_iff hfirst _).2 hopens.first_eq,
        (hnext.byteAt_iff hsecond _).2 hopens.second_eq⟩
  | case3 c hend =>
    rw [Bool.not_eq_false] at hend
    have hpos := h.toLineEnd.isAtEnd_iff.1 hend
    refine .missed hpos fun i hfrom hopens => ?_
    obtain ⟨hi, -⟩ := List.getElem?_eq_some_iff.1 hopens.first_eq
    rw [Text.length_bytes] at hi
    exact h.not_startsLine hfrom (by omega) hopens.startsLine

end Cursor

/-! ## Boundaries of characters -/

namespace Text

variable {text : String} {i : Nat} {b : UInt8}

/-- The offset does not split a character. -/
def IsBoundary (text : String) (i : Nat) : Prop := (⟨i⟩ : String.Pos.Raw).IsValid text

theorem isBoundary_iff :
    IsBoundary text i ↔ ∃ front back, text.toList = front ++ back ∧ i = (encode front).length := by
  rw [IsBoundary, String.Pos.Raw.isValid_iff_exists_append]
  constructor
  · rintro ⟨front, back, rfl, hi⟩
    refine ⟨front.toList, back.toList, String.toList_append, ?_⟩
    rw [length_encode, String.ofList_toList]
    exact congrArg String.Pos.Raw.byteIdx hi
  · rintro ⟨front, back, htext, rfl⟩
    refine ⟨String.ofList front, String.ofList back, ?_, ?_⟩
    · rw [← String.ofList_append, ← htext, String.ofList_toList]
    · rw [length_encode]
      rfl

theorem isBoundary_start (text : String) : IsBoundary text 0 :=
  isBoundary_iff.2 ⟨[], text.toList, rfl, rfl⟩

theorem isBoundary_end (text : String) : IsBoundary text text.utf8ByteSize := by
  refine isBoundary_iff.2 ⟨text.toList, [], (List.append_nil _).symm, ?_⟩
  rw [length_encode, String.ofList_toList]

/-- The number of bytes that a first byte tells, by its value. -/
theorem widthOf_ofNat {n : Nat} (hn : n < 256) :
    Cursor.widthOf (UInt8.ofNat n) =
      if 192 ≤ n ∧ n ≤ 223 then 2 else if 224 ≤ n ∧ n ≤ 239 then 3
      else if 240 ≤ n ∧ n ≤ 247 then 4 else 1 := by
  have hvalue : (UInt8.ofNat n).toNat = n := by
    rw [UInt8.toNat_ofNat']
    exact Nat.mod_eq_of_lt hn
  simp only [Cursor.widthOf, UInt8.le_iff_toNat_le, hvalue, UInt8.reduceToNat]

/-- The first byte of a character tells the number of its bytes. -/
theorem exists_utf8EncodeChar_eq (c : Char) :
    ∃ lead more, String.utf8EncodeChar c = lead :: more ∧
      Cursor.widthOf lead = (String.utf8EncodeChar c).length := by
  simp only [String.utf8EncodeChar]
  split
  · refine ⟨_, _, rfl, ?_⟩
    rw [widthOf_ofNat (by omega), if_neg (by omega), if_neg (by omega), if_neg (by omega)]
    rfl
  · split
    · refine ⟨_, _, rfl, ?_⟩
      rw [widthOf_ofNat (by omega), if_pos (by omega)]
      rfl
    · split
      · refine ⟨_, _, rfl, ?_⟩
        rw [widthOf_ofNat (by omega), if_neg (by omega), if_pos (by omega)]
        rfl
      · refine ⟨_, _, rfl, ?_⟩
        rw [widthOf_ofNat (by omega), if_neg (by omega), if_neg (by omega), if_pos (by omega)]
        rfl

/-- A boundary that is not the end is in front of a character, whose first byte stands there. -/
theorem IsBoundary.exists_char (h : IsBoundary text i) (hb : (bytes text)[i]? = some b) :
    ∃ front c back, text.toList = front ++ ([c] ++ back) ∧ i = (encode front).length ∧
      Cursor.widthOf b = (encode [c]).length := by
  obtain ⟨front, back, htext, rfl⟩ := isBoundary_iff.1 h
  have hbytes : bytes text = encode front ++ encode back := by
    rw [bytes_eq_encode, htext, encode_append]
  rw [hbytes, List.getElem?_append_right (Nat.le_refl _), Nat.sub_self] at hb
  cases back with
  | nil => cases hb
  | cons c back =>
    obtain ⟨lead, more, hlead, hwidth⟩ := exists_utf8EncodeChar_eq c
    have hchar : encode [c] = String.utf8EncodeChar c := List.flatMap_singleton ..
    have hfirst : encode (c :: back) = lead :: (more ++ encode back) := by
      rw [← List.cons_append, ← hlead]
      rfl
    rw [hfirst, List.getElem?_cons_zero, Option.some_inj] at hb
    rw [← hb, hwidth, ← hchar]
    exact ⟨front, c, back, htext, rfl, rfl⟩

theorem IsBoundary.add_widthOf (h : IsBoundary text i) (hb : (bytes text)[i]? = some b) :
    IsBoundary text (i + Cursor.widthOf b) := by
  obtain ⟨front, c, back, htext, rfl, hwidth⟩ := h.exists_char hb
  refine isBoundary_iff.2 ⟨front ++ [c], back, ?_, ?_⟩
  · rw [htext, List.append_assoc]
  · rw [hwidth, encode_append, List.length_append]

theorem isBoundary_of_lineFeed (h : (bytes text)[i]? = some lineFeed) : IsBoundary text i := by
  obtain ⟨hi, hget⟩ := List.getElem?_eq_some_iff.1 h
  refine String.Pos.Raw.isValid_iff_isUTF8FirstByte.2 (.inr ⟨hi, ?_⟩)
  change ((bytes text)[i]).IsUTF8FirstByte
  rw [hget]
  exact .inl rfl

end Text

namespace Cursor

variable {text : String} {c : Cursor}

theorem Exact.pos_advanceBy (h : c.Exact text) (n : Nat) :
    (c.advanceBy n).pos = min (c.pos + n) text.utf8ByteSize := by
  induction n generalizing c with
  | zero => exact (Nat.min_eq_left h.pos_le).symm
  | succ n ih =>
    unfold Cursor.advanceBy
    split
    · next hend =>
      have hpos := h.isAtEnd_iff.1 hend
      omega
    · next hend =>
      rw [Bool.not_eq_true] at hend
      have hpos := pos_advance hend
      rw [ih h.advance, hpos]
      omega

/-- The cursor stands between two characters, or at an end of the text. -/
def AtBoundary (text : String) (c : Cursor) : Prop := Text.IsBoundary text c.pos

theorem Exact.atBoundary_end (h : c.Exact text) (hend : c.isAtEnd = true) : c.AtBoundary text := by
  rw [AtBoundary, h.isAtEnd_iff.1 hend]
  exact Text.isBoundary_end text

/-- A move over a character ends behind all its bytes. -/
theorem AtBoundary.pos_advanceChar (hc : c.AtBoundary text) (h : c.Exact text)
    (hend : c.isAtEnd = false) : c.advanceChar.pos = c.pos + widthOf c.current := by
  obtain ⟨front, back, htext, hpos⟩ := Text.isBoundary_iff.1 (hc.add_widthOf (h.getElem?_pos hend))
  have hle : c.pos + widthOf c.current ≤ text.utf8ByteSize := by
    rw [hpos, ← Text.length_bytes, Text.bytes_eq_encode, htext, Text.encode_append,
      List.length_append]
    exact Nat.le_add_right _ _
  rw [advanceChar, h.pos_advanceBy, Nat.min_eq_left hle]

/-- A slice between two boundaries is what stands between them. -/
theorem Exact.slice_eq (h : c.Exact text) {front between back : List Char}
    (htext : text.toList = front ++ (between ++ back)) :
    c.slice (Text.encode front).length
      ((Text.encode front).length + (Text.encode between).length) = String.ofList between := by
  have hbytes : Text.bytes text =
      Text.encode front ++ (Text.encode between ++ Text.encode back) := by
    rw [Text.bytes_eq_encode, htext, Text.encode_append, Text.encode_append]
  have hsize : c.bytes.size = (Text.encode front).length +
      ((Text.encode between).length + (Text.encode back).length) := by
    rw [h.bytes_eq, ← List.length_append, ← List.length_append, ← hbytes]
    rfl
  have hextract : c.bytes.extract (Text.encode front).length
      ((Text.encode front).length + (Text.encode between).length) =
        (String.ofList between).toByteArray := by
    have hlist : c.bytes.data.toList = Text.bytes text := by
      rw [h.bytes_eq]
      rfl
    have hbetween : Text.bytes (String.ofList between) = Text.encode between := by
      rw [Text.bytes_eq_encode, String.toList_ofList]
    refine ByteArray.ext (Array.toList_inj.1 ?_)
    rw [ByteArray.data_extract, Array.toList_extract, hlist, hbytes, List.extract_eq_take_drop,
      Nat.add_sub_cancel_left, List.drop_left, List.take_left]
    exact hbetween.symm
  rw [slice, hsize, Nat.min_eq_left (by omega), Nat.min_eq_left (by omega), hextract,
    String.fromUTF8?, dif_pos (String.ofList between).isValidUTF8]
  rfl

/-- A cursor in front of a character shows it. -/
theorem AtBoundary.exists_char? (hc : c.AtBoundary text) (h : c.Exact text)
    (hend : c.isAtEnd = false) :
    ∃ front d back, text.toList = front ++ ([d] ++ back) ∧ c.pos = (Text.encode front).length ∧
      c.char? = some d ∧ c.advanceChar.pos = (Text.encode (front ++ [d])).length := by
  obtain ⟨front, d, back, htext, hpos, hwidth⟩ := hc.exists_char (h.getElem?_pos hend)
  refine ⟨front, d, back, htext, hpos, ?_, ?_⟩
  · rw [char?, hend, if_neg Bool.false_ne_true, hwidth, hpos, h.slice_eq htext,
      String.toList_ofList]
    rfl
  · rw [hc.pos_advanceChar h hend, hwidth, hpos, Text.encode_append, List.length_append]

theorem AtBoundary.advanceChar (hc : c.AtBoundary text) (h : c.Exact text) :
    c.advanceChar.AtBoundary text := by
  cases hend : c.isAtEnd with
  | true =>
    have hpos := h.isAtEnd_iff.1 hend
    have hstay : c.advanceChar.pos = c.pos := by
      rw [Cursor.advanceChar, h.pos_advanceBy, hpos]
      omega
    rw [AtBoundary, hstay]
    exact hc
  | false =>
    rw [AtBoundary, hc.pos_advanceChar h hend]
    exact hc.add_widthOf (h.getElem?_pos hend)

theorem widthOf_of_isBlank {b : UInt8} (h : isBlank b = true) : widthOf b = 1 := by
  simp only [isBlank, Bool.or_eq_true, decide_eq_true_eq, or_assoc] at h
  rcases h with rfl | rfl | rfl | rfl | rfl <;> rfl

/-- A move over bytes that are characters of their own. -/
theorem AtBoundary.advanceWhile (hc : c.AtBoundary text) (h : c.Exact text) {p : UInt8 → Bool}
    (hp : ∀ b, p b = true → widthOf b = 1) : (c.advanceWhile p).AtBoundary text := by
  fun_induction Cursor.advanceWhile p c with
  | case1 c hmove ih =>
    refine ih ?_ h.advance
    rw [AtBoundary, pos_advance hmove.1, ← hp _ hmove.2]
    exact hc.add_widthOf (h.getElem?_pos hmove.1)
  | case2 => exact hc

theorem AtBoundary.skipBlanks (hc : c.AtBoundary text) (h : c.Exact text) :
    c.skipBlanks.AtBoundary text := hc.advanceWhile h fun _ => widthOf_of_isBlank

/-- A line ends at a boundary, also if the cursor sets out from inside of a character. -/
theorem Exact.atBoundary_toLineEnd (h : c.Exact text) : c.toLineEnd.AtBoundary text := by
  cases hend : c.toLineEnd.isAtEnd with
  | true => exact h.toLineEnd.atBoundary_end hend
  | false => exact Text.isBoundary_of_lineFeed (h.lineEnd.getElem?_pos hend)

theorem Exact.atBoundary_toLineStarting (h : c.Exact text) (first second : UInt8) :
    (c.toLineStarting first second).2.AtBoundary text := by
  fun_induction Cursor.toLineStarting first second c with
  | case1 c hend next hmatch =>
    have hget := h.lineEnd.getElem?_pos hend
    have hpos : next.pos = c.toLineEnd.pos + widthOf lineFeed := pos_advance hend
    rw [AtBoundary, hpos]
    exact (Text.isBoundary_of_lineFeed hget).add_widthOf hget
  | case2 c hend next hmatch ih => exact ih h.toLineEnd.advance
  | case3 c hend =>
    rw [Bool.not_eq_false] at hend
    exact h.toLineEnd.atBoundary_end hend

/-- The moves that take a cursor between two characters to such a place. -/
structure KeepsBoundary (text : String) (c : Cursor) : Prop where
  advanceChar : c.advanceChar.AtBoundary text
  skipBlanks : c.skipBlanks.AtBoundary text
  toLineEnd : c.toLineEnd.AtBoundary text
  toLineStarting : ∀ first second, (c.toLineStarting first second).2.AtBoundary text
  /-- A cursor in front of a character shows it and moves over it. -/
  char : c.isAtEnd = false →
    ∃ front d back, text.toList = front ++ ([d] ++ back) ∧ c.pos = (Text.encode front).length ∧
      c.char? = some d ∧ c.advanceChar.pos = (Text.encode (front ++ [d])).length

theorem AtBoundary.keepsBoundary (hc : c.AtBoundary text) (h : c.Exact text) :
    c.KeepsBoundary text where
  advanceChar := hc.advanceChar h
  skipBlanks := hc.skipBlanks h
  toLineEnd := h.atBoundary_toLineEnd
  toLineStarting := h.atBoundary_toLineStarting
  char := hc.exists_char? h

/-! ## Sequences of moves -/

/-- A move of a cursor. -/
inductive Move where
  | advance
  | advanceBy (n : Nat)
  | advanceChar
  | advanceWhile (p : UInt8 → Bool)
  | skipBlanks
  | toLineEnd
  | toLineStarting (first second : UInt8)

namespace Move

/-- The cursor after the move. -/
def apply (c : Cursor) : Move → Cursor
  | advance => c.advance
  | advanceBy n => c.advanceBy n
  | advanceChar => c.advanceChar
  | advanceWhile p => c.advanceWhile p
  | skipBlanks => c.skipBlanks
  | toLineEnd => c.toLineEnd
  | toLineStarting first second => (c.toLineStarting first second).2

/-- The moves that do not end inside of a character unless they start there. -/
def isOverCharacters : Move → Bool
  | advance | advanceBy _ | advanceWhile _ => false
  | _ => true

end Move

theorem Exact.apply (h : c.Exact text) (m : Move) : (m.apply c).Exact text := by
  cases m with
  | advance => exact h.advance
  | advanceBy n => exact h.advanceBy n
  | advanceChar => exact h.advanceChar
  | advanceWhile p => exact h.advanceWhile p
  | skipBlanks => exact h.skipBlanks
  | toLineEnd => exact h.toLineEnd
  | toLineStarting first second => exact h.toLineStarting first second

theorem KeepsBoundary.apply (h : c.KeepsBoundary text) {m : Move}
    (hm : m.isOverCharacters = true) : (m.apply c).AtBoundary text := by
  cases m with
  | advance => cases hm
  | advanceBy n => cases hm
  | advanceChar => exact h.advanceChar
  | advanceWhile p => cases hm
  | skipBlanks => exact h.skipBlanks
  | toLineEnd => exact h.toLineEnd
  | toLineStarting first second => exact h.toLineStarting first second

/-- What is done with a cursor. -/
inductive Action where
  | move (m : Move)
  /-- Keeps a copy of the cursor. -/
  | save
  /-- Goes back to a copy; the newest has number 0. -/
  | restore (number : Nat)

/-- A cursor on its way, and the copies that were kept of it. -/
structure Journey where
  cursor : Cursor
  copies : List Cursor := []

namespace Journey

/-- What an action leads to. A copy that was never kept cannot be gone back to. -/
def step (j : Journey) : Action → Journey
  | .move m => { j with cursor := m.apply j.cursor }
  | .save => { j with copies := j.cursor :: j.copies }
  | .restore number => { j with cursor := (j.copies[number]?).getD j.cursor }

/-- What some actions lead to, one after the other. -/
def run (j : Journey) (actions : List Action) : Journey := actions.foldl step j

/-- The property holds of the cursor and of its copies. -/
structure All (P : Cursor → Prop) (j : Journey) : Prop where
  cursor : P j.cursor
  copies : ∀ c ∈ j.copies, P c

variable {P : Cursor → Prop} {j : Journey}

theorem All.step (h : j.All P) {a : Action}
    (ha : ∀ m, a = .move m → ∀ c, P c → P (m.apply c)) : (j.step a).All P := by
  cases a with
  | move m => exact ⟨ha m rfl _ h.cursor, h.copies⟩
  | save => exact ⟨h.cursor, List.forall_mem_cons.2 ⟨h.cursor, h.copies⟩⟩
  | restore number =>
    refine ⟨?_, h.copies⟩
    change P ((j.copies[number]?).getD j.cursor)
    cases hcopy : j.copies[number]? with
    | none => exact h.cursor
    | some copy => exact h.copies copy (List.mem_of_getElem? hcopy)

/-- What every move keeps holds wherever the cursor gets. -/
theorem All.run (h : j.All P) {actions : List Action}
    (hmoves : ∀ m, .move m ∈ actions → ∀ c, P c → P (m.apply c)) : (j.run actions).All P := by
  induction actions generalizing j with
  | nil => exact h
  | cons a actions ih =>
    have ha : ∀ m, a = .move m → ∀ c, P c → P (m.apply c) := fun m hm =>
      hmoves m (hm ▸ List.mem_cons_self)
    exact ih (h.step ha) fun m hm => hmoves m (List.mem_cons_of_mem _ hm)

end Journey

/-- However a cursor got where it is, what it keeps and shows is right, it finds the next line that
starts with two bytes if there is one, and from between two characters it is moved to such
places. Its line and its column exceed its offset by one at most. -/
theorem exact_of_moves (text : String) (actions : List Action) :
    let c := (Journey.run { cursor := ofText text } actions).cursor
    c.Exact text ∧ c.Shows text ∧ c.line ≤ c.pos + 1 ∧ c.column ≤ c.pos + 1 ∧
    LineEnd text c c.toLineEnd ∧
    (∀ first second, first ≠ 0 → second ≠ 0 →
      Seeks text first second c.pos (c.toLineStarting first second) ∧
      ((c.toLineStarting first second).1 = true ↔
        ∃ i, c.pos < i ∧ Text.OpensLine text first second i)) ∧
    (c.AtBoundary text → c.KeepsBoundary text) ∧
    ((∀ m, .move m ∈ actions → m.isOverCharacters = true) → c.AtBoundary text) := by
  intro c
  have hstart : Journey.All (Exact text) { cursor := ofText text } := ⟨exact_ofText text, nofun⟩
  have h : c.Exact text := (hstart.run fun m _ _ hc => hc.apply m).cursor
  refine ⟨h, h.shows, ?_, ?_, h.lineEnd, fun first second hfirst hsecond => ?_,
    fun hc => hc.keepsBoundary h, fun hmoves => ?_⟩
  · rw [h.line_eq]
    exact Text.lineAt_le text c.pos
  · have hsum := h.shows.lineStart_add_column
    omega
  · have hseeks := h.seeks hfirst hsecond
    exact ⟨hseeks, hseeks.found_iff⟩
  · have hbetween : Journey.All (fun c => c.Exact text ∧ c.AtBoundary text)
        { cursor := ofText text } :=
      ⟨⟨exact_ofText text, Text.isBoundary_start text⟩, nofun⟩
    refine (hbetween.run fun m hm c hc => ?_).cursor.2
    exact ⟨hc.1.apply m, (hc.2.keepsBoundary hc.1).apply (hmoves m hm)⟩

end Cursor

end Modula
