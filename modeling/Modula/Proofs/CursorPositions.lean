import Modula.Proofs.CursorMoves
import Modula.Proofs.Relocation
import Modula.Proofs.Scanner

/-!
# Positions that a cursor keeps

The rules for symbols are about characters, and positions are threaded through them. A cursor moves
over bytes and keeps its line on its own. Here a cursor is taken along: when characters are read, it
is moved over as many, and what it keeps are the positions that were threaded. The bytes it shows
are those that tell the characters apart, and its moves over blanks, to the end of a line, and to the
line that ends disabled code come to where the rules for characters come.
-/

namespace Modula

open Comment

/-! ## First bytes -/

/-- A character that is one byte is the only one that starts with this byte. -/
theorem head?_utf8EncodeChar_eq_iff {a : Char} (ha : a.toNat < 128) (d : Char) :
    (String.utf8EncodeChar d).head? = some (UInt8.ofNat a.toNat) ↔ d = a := by
  have hval {n : Nat} (hn : n < 256) :
      some (UInt8.ofNat n) = some (UInt8.ofNat a.toNat) ↔ n = a.toNat := by
    rw [Option.some_inj, ← UInt8.toNat_inj, UInt8.toNat_ofNat', UInt8.toNat_ofNat']
    omega
  have hchar : d = a ↔ d.val.toNat = a.toNat := by
    rw [Char.ext_iff, ← UInt32.toNat_inj]
    rfl
  rw [hchar]
  simp only [String.utf8EncodeChar]
  split
  · rw [List.head?_cons, hval (by omega)]
  · split
    · rw [List.head?_cons, hval (by omega)]
      omega
    · split
      · rw [List.head?_cons, hval (by omega)]
        omega
      · rw [List.head?_cons, hval (by omega)]
        omega

namespace Cursor

variable {text : String} {c : Cursor} {front back : List Char}

/-- The offset, the line and the column of a cursor. -/
def position (c : Cursor) : Position := ⟨c.pos, c.line, c.column⟩

/-- The cursor stands behind some characters of the text and in front of the others. -/
structure Between (text : String) (front back : List Char) (c : Cursor) : Prop where
  exact : c.Exact text
  text_eq : text.toList = front ++ back
  pos_eq : c.pos = (Text.encode front).length

namespace Between

theorem ofText (text : String) : (ofText text).Between text [] text.toList :=
  ⟨exact_ofText text, rfl, rfl⟩

/-- What the cursor keeps is the position behind the characters in front of it. -/
theorem position_eq (h : c.Between text front back) :
    c.position = Position.start.after front := by
  have hexact : (Position.start.after front).Exact text :=
    Position.exact_after ⟨back, h.text_eq.symm⟩
  have hoffset : c.pos = (Position.start.after front).offset := by
    rw [Position.offset_after, ← Text.length_encode, h.pos_eq]
    exact (Nat.zero_add _).symm
  rw [position, h.exact.line_eq, h.exact.column_eq, hoffset, ← hexact.line_eq,
    ← hexact.column_eq]

/-- The cursor is at the start of a line where the column is the first one. -/
theorem isAtLineStart_iff (h : c.Between text front back) :
    c.isAtLineStart = true ↔ (Position.start.after front).column = 1 := by
  have hle := h.exact.lineStart_le
  rw [← h.position_eq, isAtLineStart, beq_iff_eq]
  change _ ↔ c.pos - c.lineStart + 1 = 1
  omega

/-! ## The bytes behind the cursor -/

theorem byteAt_eq (h : c.Between text front back) (i : Nat) :
    c.byteAt (c.pos + i) = ((Text.encode back)[i]?).getD 0 := by
  rw [h.exact.byteAt_eq, Text.bytes_eq_encode, h.text_eq, Text.encode_append, h.pos_eq,
    List.getElem?_append_right (Nat.le_add_right _ _), Nat.add_sub_cancel_left]

theorem isAtEnd_iff (h : c.Between text front back) : c.isAtEnd = true ↔ back = [] := by
  rw [h.exact.isAtEnd_iff, h.pos_eq, ← Text.length_bytes, Text.bytes_eq_encode, h.text_eq,
    Text.encode_append, List.length_append, Nat.left_eq_add]
  cases back with
  | nil => exact iff_of_true rfl rfl
  | cons d back =>
    refine iff_of_false (fun hlength => ?_) (List.cons_ne_nil d back)
    obtain ⟨lead, more, hlead, -⟩ := Text.exists_utf8EncodeChar_eq d
    rw [Text.encode, List.flatMap_cons, hlead] at hlength
    cases hlength

/-- The byte behind the cursor is the first one of the character behind it. -/
theorem head?_eq_current {d : Char} (h : c.Between text front (d :: back)) :
    (String.utf8EncodeChar d).head? = some c.current := by
  obtain ⟨lead, more, hlead, -⟩ := Text.exists_utf8EncodeChar_eq d
  have hbyte := h.byteAt_eq 0
  rw [Text.encode, List.flatMap_cons, hlead] at hbyte
  rw [hlead]
  exact congrArg some hbyte.symm

/-- The byte behind the cursor tells a character of one byte. -/
theorem current_eq_iff (h : c.Between text front back) {a : Char} (ha : a.toNat < 128)
    (hne : a ≠ '\x00') : c.current = UInt8.ofNat a.toNat ↔ back.head? = some a := by
  cases back with
  | nil =>
    have hzero : c.current = 0 := h.byteAt_eq 0
    refine iff_of_false (fun ha' => hne ?_) nofun
    have hval := congrArg UInt8.toNat (hzero.symm.trans ha')
    rw [UInt8.toNat_ofNat', Nat.mod_eq_of_lt (by omega)] at hval
    exact Char.ext (UInt32.toNat_inj.1 hval.symm)
  | cons d back =>
    rw [List.head?_cons, Option.some_inj, ← head?_utf8EncodeChar_eq_iff ha d, h.head?_eq_current,
      Option.some_inj]

/-! ## Moves over characters -/

section

variable {d : Char} (h : c.Between text front (d :: back))

include h

/-- The byte behind the cursor tells how many bytes the character behind it has. -/
theorem widthOf_current : widthOf c.current = (Text.encode [d]).length := by
  obtain ⟨lead, more, hlead, hwidth⟩ := Text.exists_utf8EncodeChar_eq d
  have hcurrent := h.head?_eq_current
  rw [hlead, List.head?_cons, Option.some_inj] at hcurrent
  rw [← hcurrent, hwidth, Text.encode, List.flatMap_singleton]

theorem isAtEnd_eq_false : c.isAtEnd = false := by
  rw [← Bool.not_eq_true, h.isAtEnd_iff]
  exact List.cons_ne_nil d back

theorem char?_eq : c.char? = some d := by
  rw [char?, h.isAtEnd_eq_false, if_neg Bool.false_ne_true, h.widthOf_current, h.pos_eq,
    h.exact.slice_eq h.text_eq, String.toList_ofList]
  rfl

/-- Moving over a character takes it from behind the cursor in front of it. -/
theorem advanceChar : c.advanceChar.Between text (front ++ [d]) back := by
  have htext : text.toList = (front ++ [d]) ++ back := by
    rw [h.text_eq, List.append_assoc]
    rfl
  have hpos : c.pos + widthOf c.current = (Text.encode (front ++ [d])).length := by
    rw [h.pos_eq, h.widthOf_current, Text.encode_append, List.length_append]
  have hle : (Text.encode (front ++ [d])).length ≤ text.utf8ByteSize := by
    rw [← Text.length_bytes, Text.bytes_eq_encode, htext, Text.encode_append (front ++ [d]),
      List.length_append]
    exact Nat.le_add_right _ _
  refine ⟨h.exact.advanceChar, htext, ?_⟩
  rw [Cursor.advanceChar, h.exact.pos_advanceBy, hpos, Nat.min_eq_left hle]

/-- Behind a character of one byte, the byte after the next is the first one of the next character. -/
theorem peek_eq (hd : d.toNat < 128) : c.peek = c.advanceChar.current := by
  have hchar : String.utf8EncodeChar d = [UInt8.ofNat d.toNat] := by
    rw [String.utf8EncodeChar]
    exact if_pos (Nat.le_of_lt_succ hd)
  have hnext := h.advanceChar.byteAt_eq 0
  rw [peek, h.byteAt_eq, Text.encode, List.flatMap_cons, hchar]
  exact hnext.symm

end

/-- The next two bytes tell two characters of one byte. -/
theorem opens_iff (h : c.Between text front back) {a b : Char} (ha : a.toNat < 128)
    (hb : b.toNat < 128) (hane : a ≠ '\x00') (hbne : b ≠ '\x00') :
    c.current = UInt8.ofNat a.toNat ∧ c.peek = UInt8.ofNat b.toNat ↔ [a, b] <+: back := by
  rw [h.current_eq_iff ha hane]
  constructor
  · rintro ⟨hhead, hpeek⟩
    obtain ⟨more, rfl⟩ := List.head?_eq_some_iff.1 hhead
    rw [h.peek_eq ha, h.advanceChar.current_eq_iff hb hbne] at hpeek
    obtain ⟨later, rfl⟩ := List.head?_eq_some_iff.1 hpeek
    exact ⟨later, rfl⟩
  · rintro ⟨later, rfl⟩
    refine ⟨rfl, ?_⟩
    rw [h.peek_eq ha]
    exact (h.advanceChar.current_eq_iff hb hbne).2 rfl

/-- Moving over some characters, one by one. -/
theorem advanceChars {piece : List Char} (h : c.Between text front (piece ++ back)) :
    (Cursor.advanceChar^[piece.length] c).Between text (front ++ piece) back := by
  induction piece generalizing c front with
  | nil =>
    rw [List.append_nil]
    exact h
  | cons d piece ih =>
    have hlater := ih h.advanceChar
    rwa [List.append_assoc] at hlater

/-- A cursor that is moved over some characters keeps the position behind them. -/
theorem position_advanceChars {piece : List Char} (h : c.Between text front (piece ++ back)) :
    (Cursor.advanceChar^[piece.length] c).position = c.position.after piece := by
  rw [h.advanceChars.position_eq, h.position_eq, Position.after_append]

/-! ## Moves over bytes -/

end Between

/-- A move over bytes that satisfy a condition may be taken up behind some of them. -/
theorem advanceWhile_advanceBy {p : UInt8 → Bool} (n : Nat)
    (hp : ∀ i < n, p (c.byteAt (c.pos + i)) = true) :
    (c.advanceBy n).advanceWhile p = c.advanceWhile p := by
  induction n generalizing c with
  | zero => rfl
  | succ n ih =>
    rw [advanceBy]
    split
    · rfl
    · next hend =>
      rw [Bool.not_eq_true] at hend
      have hcurrent : p c.current = true := hp 0 (Nat.succ_pos n)
      rw [advanceWhile.eq_def p c, dif_pos ⟨hend, hcurrent⟩]
      refine ih fun i hi => ?_
      rw [byteAt_advance, pos_advance hend, Nat.add_assoc, Nat.add_comm 1]
      exact hp (i + 1) (Nat.succ_lt_succ hi)

/-- The condition on bytes is one on characters: it holds of all bytes of a character or fails for
the first one. -/
structure Decides (p : UInt8 → Bool) (q : Char → Bool) : Prop where
  of_true : ∀ d, q d = true → ∀ b ∈ String.utf8EncodeChar d, p b = true
  of_false : ∀ d, q d = false → ∀ b, (String.utf8EncodeChar d).head? = some b → p b = false

namespace Between

/-- A move over bytes is one over characters where the condition is one on characters. -/
theorem advanceWhile {p : UInt8 → Bool} {q : Char → Bool} (hpq : Decides p q)
    (h : c.Between text front back) :
    (c.advanceWhile p).Between text (front ++ back.takeWhile q) (back.dropWhile q) := by
  induction back generalizing c front with
  | nil =>
    rw [Cursor.advanceWhile, dif_neg (by simp [h.isAtEnd_iff.2 rfl]), List.takeWhile_nil,
      List.append_nil]
    exact h
  | cons d back ih =>
    have hbytes (i : Nat) (hi : i < (String.utf8EncodeChar d).length) :
        c.byteAt (c.pos + i) = (String.utf8EncodeChar d)[i] := by
      rw [h.byteAt_eq, Text.encode, List.flatMap_cons, List.getElem?_append_left hi,
        List.getElem?_eq_getElem hi, Option.getD_some]
    cases hq : q d with
    | true =>
      have hwidth : widthOf c.current = (String.utf8EncodeChar d).length := by
        rw [h.widthOf_current, Text.encode, List.flatMap_singleton]
      have hall : ∀ i < widthOf c.current, p (c.byteAt (c.pos + i)) = true := by
        intro i hi
        rw [hwidth] at hi
        rw [hbytes i hi]
        exact hpq.of_true d hq _ (List.getElem_mem hi)
      rw [← advanceWhile_advanceBy _ hall, List.takeWhile_cons_of_pos hq,
        List.dropWhile_cons_of_pos hq, List.append_cons]
      exact ih h.advanceChar
    | false =>
      have hcurrent := hpq.of_false d hq _ h.head?_eq_current
      rw [Cursor.advanceWhile, dif_neg (by simp [hcurrent]),
        List.takeWhile_cons_of_neg (by simp [hq]), List.dropWhile_cons_of_neg (by simp [hq]),
        List.append_nil]
      exact h

end Between

theorem decides_isBlank : Decides isBlank Chunk.isBlank where
  of_true d hd b hb := by
    simp only [Chunk.isBlank, Bool.or_eq_true, decide_eq_true_eq, or_assoc] at hd
    have hone : ∃ a, String.utf8EncodeChar d = [a] ∧ isBlank a = true := by
      rcases hd with rfl | rfl | rfl | rfl | rfl
      · exact ⟨32, rfl, rfl⟩
      · exact ⟨9, rfl, rfl⟩
      · exact ⟨10, rfl, rfl⟩
      · exact ⟨13, rfl, rfl⟩
      · exact ⟨12, rfl, rfl⟩
    obtain ⟨a, ha, hblank⟩ := hone
    rw [ha, List.mem_singleton] at hb
    rwa [hb]
  of_false d hd b hb := by
    rw [← Bool.not_eq_true] at hd ⊢
    intro hblank
    refine hd ?_
    simp only [isBlank, Bool.or_eq_true, decide_eq_true_eq, or_assoc] at hblank
    have heq (a : Char) (ha : a.toNat < 128) (hb' : b = UInt8.ofNat a.toNat) : d = a :=
      (head?_utf8EncodeChar_eq_iff ha d).1 (hb' ▸ hb)
    rcases hblank with rfl | rfl | rfl | rfl | rfl
    · rw [heq ' ' (by decide) rfl]; rfl
    · rw [heq '\t' (by decide) rfl]; rfl
    · rw [heq '\n' (by decide) rfl]; rfl
    · rw [heq '\r' (by decide) rfl]; rfl
    · rw [heq '\x0c' (by decide) rfl]; rfl

theorem decides_lineFeed : Decides (· != 10) (· != '\n') where
  of_true d hd b hb := by
    rw [bne_iff_ne]
    rintro rfl
    exact lineFeed_notMem_utf8EncodeChar (bne_iff_ne.1 hd) hb
  of_false d hd b hb := by
    rw [bne_eq_false_iff_eq] at hd ⊢
    rw [hd] at hb
    exact (Option.some_inj.1 hb).symm

namespace Between

theorem skipBlanks (h : c.Between text front back) :
    c.skipBlanks.Between text (front ++ back.takeWhile Chunk.isBlank)
      (back.dropWhile Chunk.isBlank) := h.advanceWhile decides_isBlank

theorem toLineEnd (h : c.Between text front back) :
    c.toLineEnd.Between text (front ++ back.takeWhile (· != '\n')) (back.dropWhile (· != '\n')) :=
  h.advanceWhile decides_lineFeed

end Between

end Cursor

/-! ## Disabled code -/

/-- No line that could end disabled code starts inside of a line. -/
theorem Comment.disabledExtent?_line {line : List Char} (hline : '\n' ∉ line) (n : Nat)
    (rest : List Char) :
    disabledExtent? n (line ++ rest) = disabledExtent? (n + line.length) rest := by
  induction line generalizing n with
  | nil => rfl
  | cons d line ih =>
    rw [List.mem_cons, not_or] at hline
    have hnot : ¬closer <+: d :: (line ++ rest) := fun hpre =>
      hline.1 (List.cons_prefix_cons.1 hpre).1
    rw [List.cons_append, disabledExtent?_cons hnot, ih hline.2, List.length_cons, Nat.add_assoc,
      Nat.add_comm 1]

namespace Cursor.Between

variable {text : String} {c : Cursor} {front back : List Char}

/-- A line feed is one byte. -/
theorem advance_lineFeed (h : c.Between text front ('\n' :: back)) :
    c.advance.Between text (front ++ ['\n']) back := by
  have hwidth : widthOf c.current = 1 := h.widthOf_current
  have hmove := h.advanceChar
  rwa [Cursor.advanceChar, hwidth, advanceBy, h.isAtEnd_eq_false, if_neg Bool.false_ne_true]
    at hmove

/-- What there is behind a cursor in front of whose line end there is more text: the rest of the
line, a line feed, and the text behind which the cursor comes. -/
theorem exists_line (h : c.Between text front back) (hend : c.toLineEnd.isAtEnd = false) :
    ∃ line more, back = line ++ '\n' :: more ∧ '\n' ∉ line ∧
      c.toLineEnd.advance.Between text (front ++ (line ++ ['\n'])) more := by
  have hmove := h.toLineEnd
  have hline := lineFeed_notMem_takeWhile (q := (· != '\n')) rfl back
  cases hrest : back.dropWhile (· != '\n') with
  | nil =>
    rw [hrest] at hmove
    rw [hmove.isAtEnd_iff.2 rfl] at hend
    cases hend
  | cons d more =>
    have hd := List.head?_dropWhile_not (· != '\n') back
    rw [hrest] at hmove hd
    obtain rfl : d = '\n' := by simpa using hd
    refine ⟨_, more, ?_, hline, ?_⟩
    · rw [← hrest, List.takeWhile_append_dropWhile]
    · rw [← List.append_assoc]
      exact hmove.advance_lineFeed

/-- The next two bytes tell the line that ends disabled code. -/
theorem opens_closer_iff (h : c.Between text front back) :
    c.current = 63 ∧ c.peek = 62 ↔ ['?', '>'] <+: back :=
  h.opens_iff (a := '?') (b := '>') (by decide) (by decide) (by decide) (by decide)

/-- What the search for the line that ends disabled code comes to, where `n` characters are in front
of the text that is searched: to that line, or to the end of the text. -/
structure EndsDisabled (text : String) (front back : List Char) (n : Nat) (r : Bool × Cursor) :
    Prop where
  ended : ∀ m, disabledExtent? n back = some m → r.1 = true ∧ ∃ region behind,
    back = region ++ behind ∧ m = n + region.length ∧
      r.2.toLineEnd.Between text (front ++ region) behind
  unended : disabledExtent? n back = none → r.1 = false ∧ r.2.Between text (front ++ back) []

/-- Looking for the line that ends disabled code, the cursor goes from line to line. -/
theorem endsDisabled (c : Cursor) : ∀ front back n, c.Between text front back →
    EndsDisabled text front back n (c.toLineStarting 63 62) := by
  fun_induction Cursor.toLineStarting 63 62 c with
  | case1 c hend next hmatch =>
    intro front back n h
    obtain ⟨line, more, rfl, hline, hnext⟩ := h.exists_line hend
    obtain ⟨later, rfl⟩ := hnext.opens_closer_iff.1 hmatch
    have hextent : disabledExtent? n (line ++ '\n' :: (['?', '>'] ++ later)) =
        some (n + line.length + 3 + (later.takeWhile (· != '\n')).length) :=
      disabledExtent?_line hline n _
    refine ⟨fun m hm => ⟨rfl, line ++ closer ++ later.takeWhile (· != '\n'),
      later.dropWhile (· != '\n'), ?_, ?_, ?_⟩, fun hnone => ?_⟩
    · simp [closer]
    · rw [hextent] at hm
      rw [← Option.some.inj hm]
      simp [closer]
      omega
    · simpa [closer] using hnext.toLineEnd
    · rw [hextent] at hnone
      cases hnone
  | case2 c hend next hmatch ih =>
    intro front back n h
    obtain ⟨line, more, rfl, hline, hnext⟩ := h.exists_line hend
    have hnot : ¬closer <+: '\n' :: more := fun hpre =>
      hmatch (hnext.opens_closer_iff.2 (List.cons_prefix_cons.1 hpre).2)
    have hextent := disabledExtent?_line hline n ('\n' :: more)
    rw [disabledExtent?_cons hnot] at hextent
    obtain ⟨hended, hunended⟩ := ih _ _ (n + line.length + 1) hnext
    refine ⟨fun m hm => ?_, fun hnone => ?_⟩
    · obtain ⟨hfound, region, behind, rfl, rfl, hstop⟩ := hended m (hextent.symm.trans hm)
      refine ⟨hfound, line ++ '\n' :: region, behind, ?_, ?_, ?_⟩
      · rw [List.append_assoc, List.cons_append]
      · rw [List.length_append, List.length_cons]
        omega
      · rwa [List.append_assoc, List.append_assoc, List.singleton_append] at hstop
    · obtain ⟨hfound, hstop⟩ := hunended (hextent.symm.trans hnone)
      refine ⟨hfound, ?_⟩
      rwa [List.append_assoc, List.append_assoc, List.singleton_append] at hstop
  | case3 c hend =>
    intro front back n h
    rw [Bool.not_eq_false] at hend
    have hmove := h.toLineEnd
    have hrest := hmove.isAtEnd_iff.1 hend
    have hline := lineFeed_notMem_takeWhile (q := (· != '\n')) rfl back
    have hback := List.takeWhile_append_dropWhile (p := (· != '\n')) (l := back)
    rw [hrest, List.append_nil] at hback
    rw [hrest, hback] at hmove
    rw [hback] at hline
    have hnone : disabledExtent? n back = none := by
      rw [← List.append_nil back]
      exact disabledExtent?_line hline n []
    refine ⟨fun m hm => ?_, fun _ => ⟨rfl, hmove⟩⟩
    rw [hnone] at hm
    cases hm

/-- Disabled code is skipped as a cursor skips it: the cursor looks for the line that ends it and
goes to the end of this line, or to the end of the text if there is no such line, which is
reported. -/
theorem disabled (h : c.Between text front back) (p : Position) :
    let found := c.toLineStarting 63 62
    let n := (Comment.disabled p back).length
    (if found.1 then found.2.toLineEnd else found.2).Between text (front ++ back.take n)
        (back.drop n) ∧
      ((Comment.disabled p back).reports = [] ↔ found.1 = true) := by
  intro found n
  obtain ⟨hended, hunended⟩ := endsDisabled c front back 0 h
  cases hm : disabledExtent? 0 back with
  | none =>
    obtain ⟨hfound, hstop⟩ := hunended hm
    have hdisabled : Comment.disabled p back =
        ⟨back.length, [.ofPosition .unterminatedDisabled p]⟩ := by
      rw [Comment.disabled, hm]
    rw [show n = back.length from congrArg Stretch.length hdisabled, hdisabled, hfound,
      List.take_length, List.drop_length]
    exact ⟨hstop, by simp⟩
  | some m =>
    obtain ⟨hfound, region, behind, rfl, rfl, hstop⟩ := hended m hm
    have hdisabled : Comment.disabled p (region ++ behind) = ⟨region.length, []⟩ := by
      rw [Comment.disabled, hm, Nat.zero_add]
    rw [show n = region.length from congrArg Stretch.length hdisabled, hdisabled, hfound,
      List.take_left, List.drop_left]
    exact ⟨hstop, by simp⟩

end Cursor.Between

/-! ## Calls for symbols -/

namespace Cursor

variable {source : String} {c : Cursor} {s : Scanner}

/-- The cursor stands where the scanner reads on, and keeps its position. -/
structure Follows (source : String) (c : Cursor) (s : Scanner) : Prop where
  between : ∃ front, c.Between source front s.rest
  position_eq : c.position = s.position

/-- At the cursor stands a symbol with its text. -/
structure ShowsSymbol (c : Cursor) (x : Symbol) : Prop where
  position_eq : c.position = x.position
  slice_eq : c.slice c.pos (c.pos + x.text.utf8ByteSize) = x.text

theorem follows_ofText (o : LexicalOptions) (source : String) :
    (ofText source).Follows source (.ofText o source) :=
  ⟨⟨[], .ofText source⟩, rfl⟩

/-- A cursor in front of a symbol's text shows it. -/
theorem Between.showsSymbol {front back : List Char} {x : Symbol}
    (h : c.Between source front (x.text.toList ++ back)) (hp : c.position = x.position) :
    c.ShowsSymbol x := by
  have hsize : x.text.utf8ByteSize = (Text.encode x.text.toList).length := by
    rw [Text.length_encode, String.ofList_toList]
  refine ⟨hp, ?_⟩
  rw [h.pos_eq, hsize, h.exact.slice_eq h.text_eq, String.ofList_toList]

/-- Where the next piece is a symbol, the cursor shows it. -/
theorem Follows.showsSymbol {k : Chunk} {behind : List Char} {x : Symbol}
    (h : c.Follows source s) (hrest : s.rest = k.extent ++ behind)
    (hplace : k.position = s.position) (hk : k.asSymbol? = some x) : c.ShowsSymbol x := by
  obtain ⟨⟨front, hbetween⟩, hposition⟩ := h
  obtain ⟨t, -, rfl⟩ := Option.map_eq_some_iff.1 hk
  rw [hrest, Chunk.extent, List.append_assoc, ← String.toList_ofList (l := k.text)] at hbetween
  exact hbetween.showsSymbol (hposition.trans hplace.symm)

/-- A cursor is moved along with a scanner over one piece. -/
theorem Follows.skip {k : Chunk} {behind : List Char} (h : c.Follows source s)
    (hrest : s.rest = k.extent ++ behind) :
    (advanceChar^[k.extent.length] c).Follows source (s.skip k) := by
  obtain ⟨⟨front, hbetween⟩, hposition⟩ := h
  rw [hrest] at hbetween
  refine ⟨⟨front ++ k.extent, ?_⟩, ?_⟩
  · rw [Scanner.skip, hrest, List.drop_left]
    exact hbetween.advanceChars
  · rw [hbetween.position_advanceChars, hposition]
    rfl

/-- A cursor that is moved along with a scanner comes to the symbol that is given out and to where the
scanner reads on. -/
theorem exists_follows_next (o : LexicalOptions) (p : Position) (rest : List Char) :
    ∀ c : Cursor, c.Follows source ⟨o, p, rest⟩ → ∃ m n,
      (advanceChar^[m] c).ShowsSymbol (Scanner.next ⟨o, p, rest⟩).1.symbol ∧
      (advanceChar^[n] c).Follows source (Scanner.next ⟨o, p, rest⟩).2 := by
  induction p, rest using Chunk.cut_induction o with
  | nil p =>
    intro c h
    obtain ⟨⟨front, hbetween⟩, hposition⟩ := h
    rw [Scanner.next_of_rest_eq_nil rfl]
    have hend : c.Between source front ("".toList ++ []) := hbetween
    exact ⟨0, 0, hend.showsSymbol hposition, ⟨front, hbetween⟩, hposition⟩
  | cons p d rest behind htext ih =>
    intro c h
    have hnext := Scanner.next_cons o p d rest
    have hskip := Scanner.skip_of_extent htext
    have hlater := h.skip htext
    rw [hskip] at hnext hlater
    cases hk : (Chunk.first o p d rest).asSymbol? with
    | some x =>
      rw [hk] at hnext
      rw [hnext]
      have hplace := (Chunk.within_first o p d rest).position_eq
      exact ⟨0, (Chunk.first o p d rest).extent.length, h.showsSymbol htext hplace hk, hlater⟩
    | none =>
      rw [hk] at hnext
      rw [hnext]
      obtain ⟨m, n, hshows, hfollows⟩ := ih _ hlater
      refine ⟨m + (Chunk.first o p d rest).extent.length,
        n + (Chunk.first o p d rest).extent.length, ?_, ?_⟩
      · rw [Function.iterate_add_apply]
        exact hshows
      · rw [Function.iterate_add_apply]
        exact hfollows

/-- The symbols that calls give out are what a cursor shows on its way through the source: it comes
to each of them by moves over characters, and keeps the position that is given out. -/
theorem exists_moves_of_call (o : LexicalOptions) (source : String) (n : Nat) :
    ∃ m, (advanceChar^[m] (ofText source)).ShowsSymbol
      ((Scanner.ofText o source).call n).symbol := by
  have hall : ∀ (n : Nat) (s : Scanner) (c : Cursor), c.Follows source s →
      ∃ m, (advanceChar^[m] c).ShowsSymbol (s.call n).symbol := by
    intro n
    induction n with
    | zero =>
      intro s c h
      obtain ⟨m, -, hshows, -⟩ := exists_follows_next s.options s.position s.rest c h
      exact ⟨m, hshows⟩
    | succ n ih =>
      intro s c h
      obtain ⟨-, k, -, hfollows⟩ := exists_follows_next s.options s.position s.rest c h
      obtain ⟨m, hshows⟩ := ih _ _ hfollows
      refine ⟨m + k, ?_⟩
      rw [Function.iterate_add_apply]
      exact hshows
  exact hall n _ _ (follows_ofText o source)

end Cursor

end Modula
