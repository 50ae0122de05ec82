import Modula.Diagnostic.Basic
import Modula.Lexical.Quoted

/-!
# Control characters in messages

A message is made of fixed words, of numbers, and of what was known about the fault. Words and
numbers have no control characters, and a character at fault is escaped if it is one. So a control
character gets into a message only with a text that holds it.
-/

namespace Modula

namespace Text

/-- The character does not occur in the text. -/
def Lacks (text : String) (c : Char) : Prop := c ∉ text.toList

instance (text : String) (c : Char) : Decidable (Lacks text c) :=
  inferInstanceAs (Decidable (c ∉ text.toList))

/-- There is no control character in the text. -/
def isVisible (text : String) : Bool := text.toList.all (!Quoted.isControl ·)

variable {a b text : String} {c : Char}

@[simp]
theorem lacks_append : Lacks (a ++ b) c ↔ Lacks a c ∧ Lacks b c := by
  rw [Lacks, String.toList_append, List.mem_append, not_or]
  rfl

@[simp]
theorem lacks_toString : Lacks (toString text) c ↔ Lacks text c := Iff.rfl

theorem lacks_of_isVisible (hc : Quoted.isControl c = true) (h : isVisible text = true) :
    Lacks text c := by
  intro hm
  have hvisible := List.all_eq_true.1 h c hm
  rw [hc] at hvisible
  cases hvisible

theorem lacks_intercalate {texts : List String} (ha : Lacks a c)
    (h : ∀ text ∈ texts, Lacks text c) : Lacks (a.intercalate texts) c := by
  induction texts with
  | nil => exact List.not_mem_nil
  | cons text texts ih =>
    obtain ⟨htext, htexts⟩ := List.forall_mem_cons.1 h
    cases texts with
    | nil => simpa using htext
    | cons next texts =>
      rw [String.intercalate_cons_cons]
      exact lacks_append.2 ⟨lacks_append.2 ⟨htext, ha⟩, ih htexts⟩

/-! ## Numbers -/

theorem isControl_digitChar (n : Nat) : Quoted.isControl n.digitChar = false := by
  have hdigit : ∀ m < 16, Quoted.isControl (Nat.digitChar m) = false := by decide
  by_cases hn : 16 ≤ n
  · rw [Nat.digitChar_eq_star.2 hn]
    rfl
  · exact hdigit n (by omega)

theorem isControl_of_mem_toDigits {base : Nat} (hbase : 1 < base) (n : Nat) :
    ∀ c ∈ Nat.toDigits base n, Quoted.isControl c = false := by
  induction n using Nat.strongRecOn with
  | ind n ih =>
    intro c hc
    rw [Nat.toDigits_eq_if hbase] at hc
    split at hc
    · rw [List.mem_singleton.1 hc]
      exact isControl_digitChar n
    · next hn =>
      rcases List.mem_append.1 hc with hc | hc
      · exact ih (n / base) (Nat.div_lt_self (by omega) hbase) c hc
      · rw [List.mem_singleton.1 hc]
        exact isControl_digitChar _

theorem lacks_toDigits {base : Nat} (hbase : 1 < base) (hc : Quoted.isControl c = true) (n : Nat) :
    Lacks (String.ofList (Nat.toDigits base n)) c := by
  intro hm
  rw [String.toList_ofList] at hm
  rw [isControl_of_mem_toDigits hbase n c hm] at hc
  cases hc

theorem lacks_ofNat (hc : Quoted.isControl c = true) (n : Nat) : Lacks (toString n) c := by
  have h : Lacks (String.ofList (Nat.toDigits 10 n)) c := lacks_toDigits (by decide) hc n
  rwa [Lacks, String.toList_ofList, ← Nat.toList_repr, ← Nat.toString_eq_repr] at h

/-! ## The character at fault -/

theorem isPrintable_eq_false (hc : Quoted.isControl c = true) : isPrintable c = false := by
  have hranges : (0x0, 0x1f) ∈ unprintableRanges ∧ (0x7f, 0xa0) ∈ unprintableRanges :=
    ⟨List.mem_cons_self, List.mem_cons_of_mem _ List.mem_cons_self⟩
  refine Bool.eq_false_iff.2 fun h => ?_
  have hlow := List.all_eq_true.1 h _ hranges.1
  have hhigh := List.all_eq_true.1 h _ hranges.2
  simp [Quoted.isControl] at hc hlow hhigh
  omega

/-- A character is shown without control characters, even if it is one. -/
theorem lacks_escaped (hc : Quoted.isControl c = true) (d : Char) : Lacks (escaped d) c := by
  unfold escaped
  split
  · exact lacks_of_isVisible hc (by decide)
  · exact lacks_of_isVisible hc (by decide)
  · exact lacks_of_isVisible hc (by decide)
  · exact lacks_of_isVisible hc (by decide)
  · exact lacks_of_isVisible hc (by decide)
  · exact lacks_of_isVisible hc (by decide)
  · exact lacks_of_isVisible hc (by decide)
  · split
    · next hd =>
      intro hm
      rw [Char.toString_eq_singleton, String.toList_singleton, List.mem_singleton] at hm
      rw [← hm, isPrintable_eq_false hc] at hd
      cases hd
    · rw [lacks_append, lacks_append]
      exact ⟨⟨lacks_of_isVisible hc (by decide), lacks_toDigits (by decide) hc _⟩,
        lacks_of_isVisible hc (by decide)⟩

end Text

/-! ## Tokens -/

variable {c : Char}

theorem Token.lacks_describe (hc : Quoted.isControl c = true) (t : Token) :
    Text.Lacks t.describe c := by
  have h : ∀ t : Token, Text.isVisible t.describe = true := by decide +kernel
  exact Text.lacks_of_isVisible hc (h t)

theorem Token.lacks_name (hc : Quoted.isControl c = true) (t : Token) : Text.Lacks t.name c := by
  have h : ∀ t : Token, Text.isVisible t.name = true := by decide +kernel
  exact Text.lacks_of_isVisible hc (h t)

theorem TokenBitmap.lacks_phrase {segments : Nat} (hc : Quoted.isControl c = true)
    (s : TokenBitmap segments) : Text.Lacks s.phrase c := by
  have htexts : ∀ text ∈ s.members.map Token.describe, Text.Lacks text c := by
    intro text ht
    obtain ⟨t, -, rfl⟩ := List.mem_map.1 ht
    exact t.lacks_describe hc
  unfold phrase
  dsimp only
  split
  · exact Text.lacks_of_isVisible hc (by decide)
  · next last hlast =>
    have hlast := htexts last (List.mem_of_getLast? hlast)
    split
    · exact hlast
    · simp only [Text.lacks_append]
      refine ⟨⟨Text.lacks_intercalate (Text.lacks_of_isVisible hc (by decide)) ?_,
        Text.lacks_of_isVisible hc (by decide)⟩, hlast⟩
      exact fun text ht => htexts text ((List.dropLast_sublist _).subset ht)

/-! ## Codes -/

theorem Severity.lacks_name (hc : Quoted.isControl c = true) (s : Severity) :
    Text.Lacks s.name c := by
  have h (s : Severity) : Text.isVisible s.name = true := by cases s <;> decide
  exact Text.lacks_of_isVisible hc (h s)

theorem Code.lacks_name (hc : Quoted.isControl c = true) (k : Code) : Text.Lacks k.name c := by
  have h (k : Code) : Text.isVisible k.name = true := by cases k <;> decide
  exact Text.lacks_of_isVisible hc (h k)

theorem Code.lacks_description (hc : Quoted.isControl c = true) (k : Code) :
    Text.Lacks k.description c := by
  have h (k : Code) : Text.isVisible k.description = true := by cases k <;> decide +kernel
  exact Text.lacks_of_isVisible hc (h k)

/-! ## Messages -/

/-- The texts that are known about the fault do not hold the character. -/
structure Diagnostic.Lacks (d : Diagnostic) (c : Char) : Prop where
  lexeme : ∀ text, d.lexeme = some text → Text.Lacks text c
  name : ∀ text, d.expected = some (.name text) → Text.Lacks text c

namespace Diagnostic

variable {d : Diagnostic}

theorem Lacks.phrase {e : Expected} (h : d.Lacks c) (hc : Quoted.isControl c = true)
    (he : d.expected = some e) : Text.Lacks e.phrase c := by
  cases e with
  | token t => exact t.lacks_describe hc
  | set s => exact s.lacks_phrase hc
  | name text =>
    have hquote : Text.Lacks "`" c := Text.lacks_of_isVisible hc (by decide)
    simp [Expected.phrase, hquote, h.name text he]

theorem Lacks.foundPhrase (h : d.Lacks c) (hc : Quoted.isControl c = true) :
    Text.Lacks d.foundPhrase c := by
  have hquote : Text.Lacks "`" c := Text.lacks_of_isVisible hc (by decide)
  have hbetween : Text.Lacks " `" c := Text.lacks_of_isVisible hc (by decide)
  unfold Diagnostic.foundPhrase
  split
  · next lexeme token hlexeme _ =>
    simp [hquote, hbetween, h.lexeme lexeme hlexeme, token.lacks_describe hc]
  · next token _ _ => exact token.lacks_describe hc
  · next lexeme hlexeme _ => simp [hquote, h.lexeme lexeme hlexeme]
  · exact Text.lacks_of_isVisible hc (by decide)

/-- A control character gets into a message only with a text that holds it. -/
theorem Lacks.message (h : d.Lacks c) (hc : Quoted.isControl c = true) :
    Text.Lacks d.message c := by
  have hplain := d.code.lacks_description hc
  have hword {text : String} (hvisible : Text.isVisible text = true) : Text.Lacks text c :=
    Text.lacks_of_isVisible hc hvisible
  have hfound := h.foundPhrase hc
  have hshown {opening : String} (hopening : Text.isVisible opening = true) (e : Char) :
      Text.Lacks (d.code.description ++ opening ++ Text.escaped e ++ "'") c := by
    simp only [Text.lacks_append]
    exact ⟨⟨⟨hplain, hword hopening⟩, Text.lacks_escaped hc e⟩, hword (by decide)⟩
  unfold Diagnostic.message
  dsimp only
  split
  · split
    · exact hshown (by decide) _
    · exact hplain
  · split
    · exact hshown (by decide) _
    · exact hplain
  · split
    · exact hshown (by decide) _
    · exact hplain
  · split
    · next e he =>
      simp only [Text.lacks_append, Text.lacks_toString]
      exact ⟨⟨⟨hword (by decide), hfound⟩, hword (by decide)⟩, h.phrase hc he⟩
    · simp only [Text.lacks_append, Text.lacks_toString]
      exact ⟨hword (by decide), hfound⟩
  · split
    · next closing e hclosing he =>
      simp only [Text.lacks_append, Text.lacks_toString]
      exact ⟨⟨⟨hword (by decide), h.lexeme closing hclosing⟩, hword (by decide)⟩, h.phrase hc he⟩
    · exact hplain
  · split
    · next token _ =>
      simp only [Text.lacks_append, Text.lacks_toString]
      exact ⟨hword (by decide), token.lacks_describe hc⟩
    · exact hplain
  · split
    · next e he =>
      simp only [Text.lacks_append, Text.lacks_toString]
      exact ⟨⟨⟨⟨hplain, hword (by decide)⟩, hfound⟩, hword (by decide)⟩, h.phrase hc he⟩
    · exact hplain
  · split
    · next lexeme hlexeme _ =>
      simp only [Text.lacks_append, Text.lacks_toString]
      exact ⟨⟨⟨hplain, hword (by decide)⟩, h.lexeme lexeme hlexeme⟩, hword (by decide)⟩
    · exact hplain

end Diagnostic

end Modula
