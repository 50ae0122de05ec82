import Mathlib.Data.List.Induction
import Modula.Text.Lines
import Modula.Text.Position

/-!
# Positions in the bytes of a text

Positions are kept character by character. Here they are compared with the bytes that a text is
encoded in: the offset counts bytes, the line is told by the line feeds among the bytes in front,
and the column by the bytes behind the last of these. No byte of a character is a line feed but
that of the line feed itself.
-/

namespace Modula

/-- The byte of a line feed. -/
def lineFeed : UInt8 := 10

/-- The bytes of some characters. -/
def Text.encode (cs : List Char) : List UInt8 := cs.flatMap String.utf8EncodeChar

/-- The bytes of a text. -/
def Text.bytes (text : String) : List UInt8 := text.toUTF8.data.toList

namespace Text

theorem encode_append (cs ds : List Char) : encode (cs ++ ds) = encode cs ++ encode ds :=
  List.flatMap_append

theorem bytes_eq_encode (text : String) : bytes text = encode text.toList := by
  rw [bytes, String.toUTF8, ← String.utf8Encode_toList, List.utf8Encode, List.data_toByteArray]
  rfl

theorem length_encode (cs : List Char) : (encode cs).length = (String.ofList cs).utf8ByteSize := by
  rw [← String.size_toByteArray, String.toByteArray_ofList, List.utf8Encode,
    List.size_toByteArray]
  rfl

/-- The line of the byte at an offset, from 1: one for each line feed in front of it. -/
def lineAt (text : String) (offset : Nat) : Nat := 1 + ((bytes text).take offset).count lineFeed

/-- The column of the byte at an offset, from 1: one for each byte between the last line feed in
front of it and the byte. -/
def columnAt (text : String) (offset : Nat) : Nat :=
  1 + (((bytes text).take offset).reverse.takeWhile (· != lineFeed)).length

end Text

/-- Only a line feed is encoded with the byte of a line feed. -/
theorem lineFeed_notMem_utf8EncodeChar {c : Char} (h : c ≠ '\n') :
    lineFeed ∉ String.utf8EncodeChar c := by
  have hval : c.val.toNat ≠ 10 := fun hc => h (Char.ext (UInt32.toNat_inj.1 hc))
  have hne (n : Nat) (hn : n % 256 ≠ 10) : lineFeed ≠ UInt8.ofNat n := by
    intro heq
    apply hn
    rw [← UInt8.toNat_ofNat', ← heq]
    rfl
  simp only [String.utf8EncodeChar]
  split
  · exact fun hm => hne _ (by omega) (List.mem_singleton.1 hm)
  · split
    · simp only [List.mem_cons, List.not_mem_nil, or_false, not_or]
      exact ⟨hne _ (by omega), hne _ (by omega)⟩
    · split
      · simp only [List.mem_cons, List.not_mem_nil, or_false, not_or]
        exact ⟨hne _ (by omega), hne _ (by omega), hne _ (by omega)⟩
      · simp only [List.mem_cons, List.not_mem_nil, or_false, not_or]
        exact ⟨hne _ (by omega), hne _ (by omega), hne _ (by omega), hne _ (by omega)⟩

namespace Position

/-- The position behind a byte. -/
def nextByte (p : Position) (b : UInt8) : Position :=
  if b = lineFeed then ⟨p.offset + 1, p.line + 1, 1⟩ else ⟨p.offset + 1, p.line, p.column + 1⟩

/-- The position behind bytes without a line feed. -/
theorem foldl_nextByte_of_notMem {bs : List UInt8} (h : lineFeed ∉ bs) (p : Position) :
    bs.foldl nextByte p = ⟨p.offset + bs.length, p.line, p.column + bs.length⟩ := by
  induction bs generalizing p with
  | nil => rfl
  | cons b bs ih =>
    rw [List.mem_cons, not_or] at h
    obtain ⟨hb, hbs⟩ := h
    rw [List.foldl_cons, ih hbs, nextByte, if_neg (Ne.symm hb), List.length_cons]
    simp only [Position.mk.injEq, true_and]
    omega

/-- To move over a character is to move over its bytes. -/
theorem next_eq_foldl (p : Position) (c : Char) :
    p.next c = (String.utf8EncodeChar c).foldl nextByte p := by
  by_cases hc : c = '\n'
  · rw [hc]
    rfl
  · rw [foldl_nextByte_of_notMem (lineFeed_notMem_utf8EncodeChar hc),
      String.length_utf8EncodeChar, next, if_neg hc]

theorem after_eq_foldl (p : Position) (cs : List Char) :
    p.after cs = (Text.encode cs).foldl nextByte p := by
  induction cs generalizing p with
  | nil => rfl
  | cons c cs ih =>
    rw [after_cons, ih, next_eq_foldl, ← List.foldl_append]
    rfl

/-- The position behind some bytes at the start of a text. -/
theorem foldl_nextByte_start (bs : List UInt8) :
    bs.foldl nextByte start =
      ⟨bs.length, 1 + bs.count lineFeed, 1 + (bs.reverse.takeWhile (· != lineFeed)).length⟩ := by
  induction bs using List.reverseRecOn with
  | nil => rfl
  | append_singleton bs b ih =>
    rw [List.foldl_append, ih, List.foldl_cons, List.foldl_nil, nextByte]
    by_cases hb : b = lineFeed
    · simp [hb]
      omega
    · simp [hb]
      omega

/-- The position is right for its offset, which does not split a character. -/
structure Exact (text : String) (p : Position) : Prop where
  valid : (⟨p.offset⟩ : String.Pos.Raw).IsValid text
  line_eq : p.line = Text.lineAt text p.offset
  column_eq : p.column = Text.columnAt text p.offset

/-- A position that is reached character by character from the start is right. -/
theorem exact_after {text : String} {front : List Char} (h : front <+: text.toList) :
    (start.after front).Exact text := by
  obtain ⟨back, hback⟩ := h
  have hpos := foldl_nextByte_start (Text.encode front)
  rw [← after_eq_foldl] at hpos
  have htake : (Text.bytes text).take (Text.encode front).length = Text.encode front := by
    rw [Text.bytes_eq_encode, ← hback, Text.encode_append, List.take_left]
  refine ⟨String.Pos.Raw.isValid_iff_exists_append.2
    ⟨String.ofList front, String.ofList back, ?_, ?_⟩, ?_, ?_⟩
  · rw [← String.ofList_append, hback, String.ofList_toList]
  · rw [hpos, Text.length_encode]
    rfl
  · rw [hpos, Text.lineAt, htake]
  · rw [hpos, Text.columnAt, htake]

theorem offset_after (p : Position) (cs : List Char) :
    (p.after cs).offset = p.offset + (String.ofList cs).utf8ByteSize := by
  rw [after_eq_foldl, ← Text.length_encode]
  generalize Text.encode cs = bs
  induction bs generalizing p with
  | nil => rfl
  | cons b bs ih =>
    rw [List.foldl_cons, ih, List.length_cons, nextByte]
    split <;> dsimp only <;> omega

theorem line_after (p : Position) (cs : List Char) :
    (p.after cs).line = p.line + cs.count '\n' := by
  induction cs generalizing p with
  | nil => rfl
  | cons c cs ih =>
    rw [after_cons, ih, next, List.count_cons]
    by_cases hc : c = '\n'
    · rw [if_pos hc]
      simp [hc]
      omega
    · rw [if_neg hc]
      simp [hc]

end Position

/-! ## Lines -/

namespace Text

theorem length_consLine (c : Char) {lines : List (List Char)} (h : lines ≠ []) :
    (consLine c lines).length = lines.length + if c = '\n' then 1 else 0 := by
  unfold consLine
  split
  · rfl
  · cases lines with
    | nil => exact absurd rfl h
    | cons first later => rfl

theorem cutLines_ne_nil {cs : List Char} (h : cs ≠ []) : cutLines cs ≠ [] := by
  intro hnil
  have hflat := flatten_cutLines cs
  rw [hnil] at hflat
  exact h hflat.symm

/-- A character of a text is in one of its lines. -/
theorem count_lt_length_cutLines (front : List Char) {back : List Char} (h : back ≠ []) :
    front.count '\n' < (cutLines (front ++ back)).length := by
  induction front with
  | nil => exact List.length_pos_iff.2 (cutLines_ne_nil h)
  | cons c front ih =>
    have hcut : cutLines (c :: front ++ back) = consLine c (cutLines (front ++ back)) := rfl
    rw [hcut, length_consLine c (cutLines_ne_nil (by simp [h])), List.count_cons]
    simpa using ih

theorem isSome_line?_iff {text : String} {n : Nat} :
    (line? text n).isSome = true ↔ 1 ≤ n ∧ n ≤ lineCount text := by
  unfold line? lineCount
  split
  · simp_all
  · rw [Option.isSome_map, isSome_getElem?, Nat.lt_iff_add_one_le]
    omega

end Text

/-- The line of a character is a line of its text. -/
theorem Position.isSome_line?_after {text : String} {front back : List Char}
    (h : text.toList = front ++ back) (hback : back ≠ []) :
    (Text.line? text (start.after front).line).isSome = true ∧
      (start.after front).line ≤ Text.lineCount text := by
  have hlt := Text.count_lt_length_cutLines front hback
  rw [← h] at hlt
  have hline := line_after start front
  have hle : (start.after front).line ≤ Text.lineCount text := by
    rw [hline, Nat.add_comm]
    exact hlt
  exact ⟨Text.isSome_line?_iff.2 ⟨by rw [hline]; exact Nat.le_add_right _ _, hle⟩, hle⟩

end Modula
