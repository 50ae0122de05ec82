import Modula.Lexical.Comment
import Modula.Lexical.Number
import Modula.Lexical.Quoted
import Modula.Lexical.Special
import Modula.Lexical.Word

/-!
# Cutting a source into chunks

A source is cut into chunks from its start to its end. A chunk is a symbol, a run of blanks, a
block of disabled code, or a stray character, which starts no symbol and is reported. An apostrophe
directly behind a word separates no digits and opens no literal: it is reported and dropped
together with the word. The chunks put together again are the source.
-/

namespace Modula

/-- A piece of a source. -/
structure Chunk where
  /-- The token, if the piece is a symbol. -/
  token? : Option Token
  /-- The characters of the symbol, of the blanks, of the disabled code, or the stray one. -/
  text : List Char
  /-- The apostrophe behind a word, if there is one. -/
  dropped : List Char
  /-- Where the piece starts. -/
  position : Position
  /-- The faults found in it. -/
  reports : List Diagnostic
  text_ne_nil : text ≠ []

namespace Chunk

/-- All characters of the piece. -/
def extent (k : Chunk) : List Char := k.text ++ k.dropped

theorem extent_ne_nil (k : Chunk) : k.extent ≠ [] := by
  simp [extent, k.text_ne_nil]

/-- A blank, a tab, a line feed, a carriage return or a form feed. -/
def isBlank (c : Char) : Bool := c = ' ' || c = '\t' || c = '\n' || c = '\r' || c = '\x0c'

/-- The report of a character that starts no symbol. -/
def strayReport (p : Position) (c : Char) : Diagnostic :=
  { Diagnostic.ofPosition .illegalCharacter p with char := c }

/-- Reads the symbol that starts with `c`, if one does. -/
def read? (o : LexicalOptions) (p : Position) (c : Char) (rest : List Char) : Option Reading :=
  if c.isAlpha || o.allowsSeparator c then some (Word.read o p c rest)
  else if c.isDigit then some (Number.read p c rest)
  else
    match c, rest with
    | '\x27', _ | '\x22', _ => some (Quoted.read p c rest)
    | '!', _ => some (Comment.readLine rest)
    | '(', '*' :: body => some (Comment.readBlock p body)
    | '<', '*' :: body => some (Comment.readPragma p body)
    | _, _ => Special.read? c rest

/-- The piece without a symbol that consists of `c` and some of the characters behind it. -/
def idle (p : Position) (c : Char) (behind : List Char) (reports : List Diagnostic) : Chunk where
  token? := none
  text := c :: behind
  dropped := []
  position := p
  reports := reports
  text_ne_nil := List.cons_ne_nil _ _

/-- The piece that is a symbol starting with `c`. -/
def ofReading (p : Position) (c : Char) (rest : List Char) (r : Reading) : Chunk :=
  let text := (c :: rest).take r.length
  let behind := (c :: rest).drop r.length
  let apostrophe := c.isAlpha && behind.head? == some '\x27'
  { token? := some r.token
    text
    dropped := if apostrophe then ['\x27'] else []
    position := p
    reports :=
      if apostrophe then r.reports ++ [strayReport (p.after text) '\x27'] else r.reports
    text_ne_nil := by
      have := r.length_pos
      simp only [text]
      intro h
      rcases List.take_eq_nil_iff.1 h with h | h
      · omega
      · exact List.cons_ne_nil _ _ h }

/-- The first piece of the text that starts with `c`. -/
def first (o : LexicalOptions) (p : Position) (c : Char) (rest : List Char) : Chunk :=
  if isBlank c then idle p c (rest.takeWhile isBlank) []
  else if c = '?' ∧ p.column = 1 ∧ rest.head? = some '<' then
    let stretch := Comment.disabled p (c :: rest)
    idle p c (rest.take (stretch.length - 1)) stretch.reports
  else
    match read? o p c rest with
    | some r => ofReading p c rest r
    | none => idle p c [] [strayReport p c]

theorem extent_idle_prefix (p : Position) (c : Char) {behind rest : List Char}
    (reports : List Diagnostic) (h : behind <+: rest) :
    (idle p c behind reports).extent <+: c :: rest := by
  rw [extent, idle, List.append_nil]
  exact List.cons_prefix_cons.2 ⟨rfl, h⟩

theorem extent_ofReading_prefix (p : Position) (c : Char) (rest : List Char) (r : Reading) :
    (ofReading p c rest r).extent <+: c :: rest := by
  have h : (c :: rest).take r.length ++ (c :: rest).drop r.length = c :: rest :=
    List.take_append_drop _ _
  simp only [extent, ofReading]
  split
  · next ha =>
    have ha := (Bool.and_eq_true_iff.1 ha).2
    cases hd : (c :: rest).drop r.length with
    | nil => rw [hd] at ha; cases ha
    | cons d behind =>
      rw [hd] at ha h
      rw [Option.some.inj (eq_of_beq ha), List.append_cons] at h
      exact ⟨behind, h⟩
  · rw [List.append_nil]; exact ⟨_, h⟩

/-- A piece starts the text that it is cut from. -/
theorem extent_first_prefix (o : LexicalOptions) (p : Position) (c : Char) (rest : List Char) :
    (first o p c rest).extent <+: c :: rest := by
  unfold first
  split
  · exact extent_idle_prefix p c _ (List.takeWhile_prefix isBlank)
  · split
    · exact extent_idle_prefix p c _ (List.take_prefix _ rest)
    · split
      · exact extent_ofReading_prefix p c rest _
      · exact extent_idle_prefix p c _ (List.nil_prefix)

/-- The pieces of a text that stands at a position, behind those in `done`, which holds the last
one first. -/
def cutOnto (o : LexicalOptions) (done : List Chunk) (p : Position) : List Char → List Chunk
  | [] => done.reverse
  | c :: rest =>
    let k := first o p c rest
    cutOnto o (k :: done) (p.after k.extent) ((c :: rest).drop k.extent.length)
termination_by cs => cs.length
decreasing_by
  have h := (first o p c rest).extent_ne_nil
  have : 0 < (first o p c rest).extent.length := List.length_pos_iff.2 h
  simp only [List.length_drop, List.length_cons]
  omega

/-- The pieces of a text that stands at a position. -/
def cut (o : LexicalOptions) (p : Position) (text : List Char) : List Chunk := cutOnto o [] p text

theorem cutOnto_cons (o : LexicalOptions) (done : List Chunk) (p : Position) (c : Char)
    (rest : List Char) :
    cutOnto o done p (c :: rest) =
      cutOnto o (first o p c rest :: done) (p.after (first o p c rest).extent)
        ((c :: rest).drop (first o p c rest).extent.length) := by
  rw [cutOnto]

theorem cutOnto_eq (o : LexicalOptions) (done earlier : List Chunk) (p : Position)
    (text : List Char) :
    cutOnto o (done ++ earlier) p text = earlier.reverse ++ cutOnto o done p text := by
  fun_induction cutOnto o done p text with
  | case1 done p => rw [cutOnto, List.reverse_append]
  | case2 done p c rest k ih => rw [cutOnto_cons]; exact ih

/-- A text without characters has no pieces. -/
@[simp]
theorem cut_nil (o : LexicalOptions) (p : Position) : cut o p [] = [] := by
  rw [cut, cutOnto, List.reverse_nil]

/-- The first piece, and then the pieces of what is behind it. -/
theorem cut_cons (o : LexicalOptions) (p : Position) (c : Char) (rest : List Char) :
    cut o p (c :: rest) =
      first o p c rest ::
        cut o (p.after (first o p c rest).extent)
          ((c :: rest).drop (first o p c rest).extent.length) := by
  rw [cut, cutOnto_cons, ← List.nil_append [first o p c rest], cutOnto_eq]
  rfl

/-- The pieces put together again are the text. -/
theorem flatMap_extent_cut (o : LexicalOptions) (p : Position) (text : List Char) :
    (cut o p text).flatMap extent = text := by
  match text with
  | [] => rw [cut_nil]; rfl
  | c :: rest =>
    rw [cut_cons, List.flatMap_cons, flatMap_extent_cut]
    obtain ⟨behind, h⟩ := extent_first_prefix o p c rest
    rw [← h, List.drop_left]
termination_by text.length
decreasing_by
  have := List.length_pos_iff.2 (first o p c rest).extent_ne_nil
  simp only [List.length_drop, List.length_cons]
  omega

end Chunk

end Modula
