import Mathlib.Data.List.TakeWhile
import Modula.Proofs.Arrivals

/-!
# More separators in identifiers

A lexical mode that allows one more separator leaves most sources as they are. The separator is
looked at only where a symbol may start and where a word may go on. Without the mode it is a stray
character in both places. So a source that has no such stray character is read the same in both
modes, and no other source is.
-/

namespace Modula

/-- A character that may separate the parts of an identifier in some lexical modes. -/
inductive Separator where
  | lowline
  | dollar

namespace Separator

def char : Separator → Char
  | lowline => '_'
  | dollar => '$'

end Separator

/-- The modes in which one more separator is allowed. -/
def LexicalOptions.withSeparator (o : LexicalOptions) : Separator → LexicalOptions
  | .lowline => { o with lowline := true }
  | .dollar => { o with dollar := true }

/-- The separator is reported as a stray character. -/
def Separator.IsStray (f : Separator) (ds : List Diagnostic) : Prop :=
  ∃ d ∈ ds, d.code = .illegalCharacter ∧ d.char = some f.char

variable {o : LexicalOptions} {f : Separator} {p : Position} {c : Char} {rest cs : List Char}

theorem LexicalOptions.allowsSeparator_withSeparator (o : LexicalOptions) (f : Separator)
    (c : Char) : (o.withSeparator f).allowsSeparator c = (o.allowsSeparator c || c = f.char) := by
  by_cases hlowline : c = '_'
  · cases f <;> simp [withSeparator, allowsSeparator, Separator.char, hlowline]
  · by_cases hdollar : c = '$'
    · cases f <;> simp [withSeparator, allowsSeparator, Separator.char, hdollar]
    · cases f <;> simp [withSeparator, allowsSeparator, Separator.char, hlowline, hdollar]

theorem LexicalOptions.allowsSeparator_withSeparator_of_ne (h : c ≠ f.char) :
    (o.withSeparator f).allowsSeparator c = o.allowsSeparator c := by
  rw [allowsSeparator_withSeparator, decide_eq_false h, Bool.or_false]

/-! ## Words -/

namespace Word

theorem isSpaced_congr {g h : Char → Bool} (heq : ∀ c ∈ cs, g c = h c) (mayCome : Bool) :
    isSpaced g mayCome cs = isSpaced h mayCome cs := by
  induction cs generalizing mayCome with
  | nil => rfl
  | cons c cs ih =>
    obtain ⟨hc, hcs⟩ := List.forall_mem_cons.1 heq
    rw [isSpaced, isSpaced, hc, ih hcs, ih hcs]

/-- What a word is depends on the modes only for the separators in it. -/
theorem classify_congr {o o' : LexicalOptions}
    (h : ∀ c ∈ cs, o'.allowsSeparator c = o.allowsSeparator c) :
    classify o' cs = classify o cs := by
  have hany : cs.any o'.allowsSeparator = cs.any o.allowsSeparator := by
    rw [Bool.eq_iff_iff, List.any_eq_true, List.any_eq_true]
    exact exists_congr fun c => and_congr_right fun hc => by rw [h c hc]
  rw [classify, classify, isSpaced_congr h, hany]

/-- A word is the same with one more separator, if that is neither its first character nor the one
behind it. -/
theorem read_withSeparator (hc : (o.withSeparator f).allowsSeparator c = o.allowsSeparator c)
    (hbehind : (rest.dropWhile (continues o)).head? ≠ some f.char) :
    read (o.withSeparator f) p c rest = read o p c rest := by
  have hcontinues (d : Char) :
      continues (o.withSeparator f) d = (continues o d || d = f.char) := by
    rw [continues, continues, LexicalOptions.allowsSeparator_withSeparator, Bool.or_assoc]
  have hsame (d : Char) (hd : continues o d = true) :
      (o.withSeparator f).allowsSeparator d = o.allowsSeparator d := by
    by_cases hf : d = f.char
    · have halnum : f.char.isAlphanum = false := by cases f <;> rfl
      have hallowed : o.allowsSeparator d = true := by
        rw [continues, hf, halnum, Bool.false_or, ← hf] at hd
        exact hd
      rw [LexicalOptions.allowsSeparator_withSeparator, hallowed, Bool.true_or]
    · exact LexicalOptions.allowsSeparator_withSeparator_of_ne hf
  have hword : ∀ d ∈ c :: rest.takeWhile (continues o),
      (o.withSeparator f).allowsSeparator d = o.allowsSeparator d :=
    List.forall_mem_cons.2 ⟨hc, fun d hd => hsame d (List.mem_takeWhile_imp hd)⟩
  have hrun : rest.takeWhile (continues (o.withSeparator f)) = rest.takeWhile (continues o) := by
    have hall : ∀ d ∈ rest.takeWhile (continues o), continues (o.withSeparator f) d = true := by
      intro d hd
      rw [hcontinues, List.mem_takeWhile_imp hd, Bool.true_or]
    have hstop : (rest.dropWhile (continues o)).takeWhile (continues (o.withSeparator f)) = [] := by
      cases hdrop : rest.dropWhile (continues o) with
      | nil => rfl
      | cons d more =>
        have hd : continues o d = false := by
          have := List.head?_dropWhile_not (p := continues o) rest
          rw [hdrop] at this
          simpa using this
        rw [hdrop, List.head?_cons, Ne, Option.some_inj] at hbehind
        refine List.takeWhile_cons_of_neg ?_
        rw [hcontinues, hd, decide_eq_false hbehind]
        exact Bool.false_ne_true
    rw [← List.append_nil (rest.takeWhile (continues o)), ← hstop,
      ← List.takeWhile_append_of_pos hall, List.takeWhile_append_dropWhile]
  unfold read
  simp only [hrun, classify_congr hword]

end Word

/-! ## Pieces -/

namespace Chunk

/-- Where a separator is not allowed, it is a stray character. -/
theorem reports_first_char (h : o.allowsSeparator f.char = false) (p : Position)
    (rest : List Char) : (first o p f.char rest).reports = [strayReport p f.char] := by
  have hread : read? o p f.char rest = none := by
    have hspecial : Special.single? f.char = none := by cases f <;> rfl
    have hnone := read?_of_single?_eq_none hspecial rest
    have hstarts : (f.char.isAlpha || o.allowsSeparator f.char) = false := by
      rw [h, Bool.or_false]
      cases f <;> rfl
    unfold read?
    rw [hstarts, if_neg Bool.false_ne_true]
    cases f <;> exact hnone
  have hblank : isBlank f.char = false := by cases f <;> rfl
  have hquestion : f.char ≠ '?' := by cases f <;> decide
  rw [first, hblank, if_neg Bool.false_ne_true, if_neg fun hd => hquestion hd.1, hread]
  rfl

/-- A character that the modes agree on is read the same, if it starts no word that goes on with
the separator. -/
theorem read?_withSeparator (hc : (o.withSeparator f).allowsSeparator c = o.allowsSeparator c)
    (hword : (c.isAlpha || o.allowsSeparator c) = true →
      (rest.dropWhile (Word.continues o)).head? ≠ some f.char) :
    read? (o.withSeparator f) p c rest = read? o p c rest := by
  unfold read?
  rw [hc]
  split
  · next h => rw [Word.read_withSeparator hc (hword h)]
  · rfl

/-- A word is a piece up to the character that does not continue it, if that is no apostrophe. -/
theorem extent_first_word {d : Char} {more : List Char} (hblank : isBlank c = false)
    (hstarts : (c.isAlpha || o.allowsSeparator c) = true)
    (hmore : rest.dropWhile (Word.continues o) = d :: more) (hd : d ≠ '\x27') :
    c :: rest = (first o p c rest).extent ++ d :: more := by
  have hsplit : rest.takeWhile (Word.continues o) ++ d :: more = rest := by
    rw [← hmore, List.takeWhile_append_dropWhile]
  have hextent : (ofReading p c (rest.takeWhile (Word.continues o) ++ d :: more)
      (Word.read o p c rest)).extent = c :: rest.takeWhile (Word.continues o) :=
    extent_ofReading_append rfl (by simp [hd])
  rw [hsplit] at hextent
  rw [first_of_read? hblank (if_pos hstarts), hextent, List.cons_append, hsplit]

/-- Without a stray separator in a text, its first piece is the same in both modes. -/
theorem first_withSeparator (h : ¬f.IsStray ((cut o p (c :: rest)).flatMap reports)) :
    first (o.withSeparator f) p c rest = first o p c rest := by
  have hstray (q : Position) (d : Char) (more : List Char) (hd : d = f.char)
      (hallowed : o.allowsSeparator d = false)
      (hmem : ∀ x ∈ (first o q d more).reports, x ∈ (cut o p (c :: rest)).flatMap reports) :
      False := by
    subst hd
    rw [reports_first_char hallowed] at hmem
    exact h ⟨strayReport q f.char, hmem _ (List.mem_singleton_self _), rfl, rfl⟩
  have hc : (o.withSeparator f).allowsSeparator c = o.allowsSeparator c := by
    by_cases hchar : c = f.char
    · cases hallowed : o.allowsSeparator c with
      | true => rw [LexicalOptions.allowsSeparator_withSeparator, hallowed, Bool.true_or]
      | false =>
        refine (hstray p c rest hchar hallowed fun x hx => ?_).elim
        rw [cut_cons, List.flatMap_cons]
        exact List.mem_append_left _ hx
    · exact LexicalOptions.allowsSeparator_withSeparator_of_ne hchar
  have hword (hstarts : (c.isAlpha || o.allowsSeparator c) = true) (hblank : isBlank c = false) :
      (rest.dropWhile (Word.continues o)).head? ≠ some f.char := by
    intro hhead
    -- the separator would be the next piece, and stray
    obtain ⟨more, hmore⟩ := List.head?_eq_some_iff.1 hhead
    have hextent := extent_first_word (p := p) hblank hstarts hmore (by cases f <;> decide)
    have hstop : Word.continues o f.char = false := by
      have := List.head?_dropWhile_not (p := Word.continues o) rest
      rw [hmore] at this
      simpa using this
    have hallowed : o.allowsSeparator f.char = false := (Bool.or_eq_false_iff.1 hstop).2
    refine hstray (p.after (first o p c rest).extent) f.char more rfl hallowed fun x hx => ?_
    rw [cut_of_extent hextent, cut_cons, List.flatMap_cons, List.flatMap_cons]
    exact List.mem_append_right _ (List.mem_append_left _ hx)
  have hread (hblank : isBlank c = false) :
      read? (o.withSeparator f) p c rest = read? o p c rest :=
    read?_withSeparator hc fun hstarts => hword hstarts hblank
  unfold first
  cases hblank : isBlank c with
  | true => rfl
  | false => rw [hread hblank]

theorem cut_withSeparator (h : ¬f.IsStray ((cut o p cs).flatMap reports)) :
    cut (o.withSeparator f) p cs = cut o p cs := by
  induction p, cs using cut_induction o with
  | nil p => rw [cut_nil, cut_nil]
  | cons p c rest behind htext ih =>
    have hfirst := first_withSeparator h
    have hlater :
        ¬f.IsStray ((cut o (p.after (first o p c rest).extent) behind).flatMap reports) := by
      rw [reports_cut_of_extent htext] at h
      rintro ⟨d, hd, hstray⟩
      exact h ⟨d, List.mem_append_right _ hd, hstray⟩
    rw [cut_of_extent htext, cut_of_extent (hfirst ▸ htext), hfirst, ih hlater]

/-- A stray character is no separator that is allowed. -/
theorem char_of_stray {d : Diagnostic} (hd : d ∈ (first o p c rest).reports)
    (hcode : d.code = .illegalCharacter) (hchar : d.char = some f.char) :
    o.allowsSeparator f.char = false := by
  cases faults_of_mem hd with
  | unended hc hp hrest hn => cases hcode
  | symbol hr hd hown =>
    rw [hcode] at hown
    cases hown
  | apostrophe q => cases f <;> cases hchar
  | stray hr =>
    rw [← Option.some.inj hchar]
    unfold read? at hr
    split at hr
    · cases hr
    · next hstarts => exact (Bool.or_eq_false_iff.1 (Bool.eq_false_iff.2 hstarts)).2

end Chunk

/-! ## Main result -/

/-- To allow one more separator makes no difference to the symbols of a source, to the table of
their lexemes and to the faults, if the source has no such separator as a stray character; and it
does make a difference to every other source. -/
theorem tokenize_withSeparator (o : LexicalOptions) (f : Separator) (source : String) :
    tokenize (o.withSeparator f) source = tokenize o source ↔
      ¬f.IsStray (tokenize o source).reports := by
  constructor
  · rintro heq ⟨d, hd, hcode, hchar⟩
    rw [← heq, reports_tokenize] at hd
    obtain ⟨k, hk, hd⟩ := List.mem_flatMap.1 hd
    obtain ⟨front, c, rest, -, rfl⟩ := exists_first_of_mem_piecesOf hk
    have hallowed := Chunk.char_of_stray hd hcode hchar
    rw [LexicalOptions.allowsSeparator_withSeparator, decide_eq_true rfl, Bool.or_true] at hallowed
    cases hallowed
  · intro h
    rw [reports_tokenize] at h
    have hcut := Chunk.cut_withSeparator h
    have hconsChunk : Scanned.consChunk (o.withSeparator f) = Scanned.consChunk o := by
      cases f <;> rfl
    have hstream : Scanned.stream (o.withSeparator f) source = Scanned.stream o source := by
      rw [Scanned.stream, Scanned.stream, hcut, hconsChunk]
    rw [tokenize, tokenize, hstream]

end Modula
