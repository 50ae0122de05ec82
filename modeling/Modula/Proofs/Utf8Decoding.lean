import Modula.Proofs.Bytes
import Modula.Text.Utf8

/-!
# Text is read back from its bytes

The bytes of a text are read as that text: nothing is replaced. So reading with replacements and
reading bytes only if they are text throughout are one reading, where both give a text.
-/

namespace Modula.Text

/-! ## Bytes of one character -/

namespace Decoding

variable {done : List Char} {b : UInt8}

/-- The last byte of a character. -/
theorem feed_last {low high bits : Nat} (h : low ≤ b.toNat ∧ b.toNat ≤ high) :
    feed ⟨done, some ⟨low, high, 0, bits⟩⟩ b =
      ⟨Char.ofNat (bits * 64 + b.toNat % 64) :: done, none⟩ :=
  if_pos h

/-- A byte inside a character. -/
theorem feed_inner {low high later bits : Nat} (h : low ≤ b.toNat ∧ b.toNat ≤ high) :
    feed ⟨done, some ⟨low, high, later + 1, bits⟩⟩ b =
      ⟨done, some ⟨0x80, 0xBF, later, bits * 64 + b.toNat % 64⟩⟩ :=
  if_pos h

/-- The first byte of a character of several bytes. -/
theorem feed_lead {u : Unfinished} (h : LeadByte.ofByte b.toNat = .begins u) :
    feed ⟨done, none⟩ b = ⟨done, some u⟩ := by
  change lead done b.toNat = _
  rw [lead, h]

end Decoding

namespace LeadByte

/-- What the first of two bytes begins. -/
theorem ofByte_two {v : Nat} (hlow : 0x7F < v) (hhigh : v ≤ 0x7FF) :
    ofByte (v / 64 % 32 + 192) = .begins ⟨0x80, 0xBF, 0, v / 64⟩ := by
  unfold ofByte
  rw [if_neg (by omega), if_pos (by omega)]
  simp only [begins.injEq, Unfinished.mk.injEq, true_and]
  omega

/-- What the first of three bytes begins: the second byte may follow, since the character is neither
shorter nor a surrogate. -/
theorem ofByte_three {v : Nat} (hlow : 0x7FF < v) (hhigh : v ≤ 0xFFFF)
    (hvalid : v < 0xD800 ∨ 0xDFFF < v) :
    ∃ low high, ofByte (v / 4096 % 16 + 224) = .begins ⟨low, high, 1, v / 4096⟩ ∧
      low ≤ v / 64 % 64 + 128 ∧ v / 64 % 64 + 128 ≤ high := by
  unfold ofByte
  rw [if_neg (by omega), if_neg (by omega)]
  by_cases hfirst : v / 4096 = 0
  · refine ⟨0xA0, 0xBF, ?_, by omega, by omega⟩
    rw [if_pos (by omega), hfirst]
  rw [if_neg (by omega)]
  by_cases hsurrogate : v / 4096 = 0xD
  · refine ⟨0x80, 0x9F, ?_, by omega, by omega⟩
    rw [if_pos (by omega), hsurrogate]
  · refine ⟨0x80, 0xBF, ?_, by omega, by omega⟩
    rw [if_neg (by omega), if_pos (by omega)]
    simp only [begins.injEq, Unfinished.mk.injEq, true_and]
    omega

/-- What the first of four bytes begins: the second byte may follow, since the character is neither
shorter nor beyond the last one. -/
theorem ofByte_four {v : Nat} (hlow : 0xFFFF < v) (hhigh : v < 0x110000) :
    ∃ low high, ofByte (v / 262144 % 8 + 240) = .begins ⟨low, high, 2, v / 262144⟩ ∧
      low ≤ v / 4096 % 64 + 128 ∧ v / 4096 % 64 + 128 ≤ high := by
  unfold ofByte
  rw [if_neg (by omega), if_neg (by omega), if_neg (by omega), if_neg (by omega),
    if_neg (by omega)]
  by_cases hfirst : v / 262144 = 0
  · refine ⟨0x90, 0xBF, ?_, by omega, by omega⟩
    rw [if_pos (by omega), hfirst]
  rw [if_neg (by omega)]
  by_cases hlast : v / 262144 = 4
  · refine ⟨0x80, 0x8F, ?_, by omega, by omega⟩
    rw [if_pos (by omega), hlast]
  · refine ⟨0x80, 0xBF, ?_, by omega, by omega⟩
    rw [if_neg (by omega), if_pos (by omega)]
    simp only [begins.injEq, Unfinished.mk.injEq, true_and]
    omega

end LeadByte

/-- The bytes of a character are read as this character. -/
theorem foldl_feed_utf8EncodeChar (c : Char) (done : List Char) :
    (String.utf8EncodeChar c).foldl Decoding.feed ⟨done, none⟩ = ⟨c :: done, none⟩ := by
  have hchar : Char.ofNat c.val.toNat = c := Char.ofNat_toNat c
  have hvalid : c.val.toNat < 0xD800 ∨ 0xDFFF < c.val.toNat ∧ c.val.toNat < 0x110000 := c.valid
  have hbyte {n : Nat} (h : n < 256) : (UInt8.ofNat n).toNat = n := by
    rw [UInt8.toNat_ofNat']
    exact Nat.mod_eq_of_lt h
  simp only [String.utf8EncodeChar]
  generalize hv : c.val.toNat = v at hchar hvalid
  split
  · next hone =>
    change Decoding.lead done (UInt8.ofNat v).toNat = _
    rw [hbyte (by omega), Decoding.lead, LeadByte.ofByte, if_pos (by omega), hchar]
  split
  · next hone htwo =>
    simp only [List.foldl_cons, List.foldl_nil]
    rw [Decoding.feed_lead (by rw [hbyte (by omega)]; exact LeadByte.ofByte_two (by omega) htwo),
      Decoding.feed_last (by rw [hbyte (by omega)]; omega), hbyte (by omega)]
    have hbits : v / 64 * 64 + (v % 64 + 128) % 64 = v := by omega
    rw [hbits, hchar]
  split
  · next htwo hthree =>
    obtain ⟨low, high, hlead, hlow, hhigh⟩ :=
      LeadByte.ofByte_three (Nat.lt_of_not_le htwo) hthree (by omega)
    simp only [List.foldl_cons, List.foldl_nil]
    rw [Decoding.feed_lead (by rw [hbyte (by omega)]; exact hlead),
      Decoding.feed_inner (by rw [hbyte (by omega)]; exact ⟨hlow, hhigh⟩),
      Decoding.feed_last (by rw [hbyte (by omega)]; omega), hbyte (by omega), hbyte (by omega)]
    have hbits : (v / 4096 * 64 + (v / 64 % 64 + 128) % 64) * 64 + (v % 64 + 128) % 64 = v := by
      omega
    rw [hbits, hchar]
  · next hthree =>
    obtain ⟨low, high, hlead, hlow, hhigh⟩ :=
      LeadByte.ofByte_four (Nat.lt_of_not_le hthree) (by omega)
    simp only [List.foldl_cons, List.foldl_nil]
    rw [Decoding.feed_lead (by rw [hbyte (by omega)]; exact hlead),
      Decoding.feed_inner (by rw [hbyte (by omega)]; exact ⟨hlow, hhigh⟩),
      Decoding.feed_inner (by rw [hbyte (by omega)]; omega),
      Decoding.feed_last (by rw [hbyte (by omega)]; omega), hbyte (by omega), hbyte (by omega),
      hbyte (by omega)]
    have hbits : ((v / 262144 * 64 + (v / 4096 % 64 + 128) % 64) * 64 +
        (v / 64 % 64 + 128) % 64) * 64 + (v % 64 + 128) % 64 = v := by
      omega
    rw [hbits, hchar]

/-! ## Texts -/

theorem foldl_feed_encode (cs done : List Char) :
    (encode cs).foldl Decoding.feed ⟨done, none⟩ = ⟨cs.reverse ++ done, none⟩ := by
  induction cs generalizing done with
  | nil => rfl
  | cons c cs ih =>
    rw [encode, List.flatMap_cons, List.foldl_append, foldl_feed_utf8EncodeChar, ← encode, ih,
      List.reverse_cons, List.append_assoc, List.singleton_append]

/-- The characters of a text are read from its bytes. -/
theorem decode_encode (cs : List Char) : decode (encode cs) = cs := by
  unfold decode
  rw [foldl_feed_encode, Decoding.finish, List.append_nil, List.reverse_reverse]

/-- Bytes that are text throughout are read as this text. -/
theorem ofBytes_of_ofValidBytes? {bytes : ByteArray} {text : String}
    (h : ofValidBytes? bytes = some text) : ofBytes bytes = text := by
  have hbytes : bytes = text.toUTF8 := by
    unfold ofValidBytes? String.fromUTF8? at h
    split at h
    · rw [← Option.some.inj h]
      rfl
    · cases h
  have hlist : bytes.data.toList = Text.bytes text := by rw [hbytes, Text.bytes]
  rw [ofBytes, hlist, bytes_eq_encode, decode_encode, String.ofList_toList]

end Modula.Text
