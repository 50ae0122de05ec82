import Modula.Proofs.Locality

/-!
# The grammar of numbers

What is a number is said by the rules that read one; here it is said by a grammar. The two agree: a
text that starts with a digit is read as one number to its end, and without a fault, exactly if the
grammar has it, and then as the token that the grammar says.
-/

namespace Modula

/-- The rule takes all of `u`, and nothing of what is behind, and finds no fault in it. -/
def Rule.Takes (f : Rule) (p : Position) (u back : List Char) : Prop :=
  f p (u ++ back) = ⟨u.length, []⟩

namespace Rule

variable {p : Position} {u back : List Char}

theorem takes_skip_iff {n : Nat} : (skip n).Takes p u back ↔ u.length = n := by
  simp [Takes, skip, eq_comm]

/-- Two rules take what the first one takes in front of what the second one takes. -/
theorem takes_andThen_iff {f g : Rule} :
    (f.andThen g).Takes p u back ↔
      ∃ v w, u = v ++ w ∧ f.Takes p v (w ++ back) ∧ g.Takes (p.after v) w back := by
  constructor
  · intro h
    have hlength : (f.andThen g p (u ++ back)).length = u.length := by rw [h]
    have hreports : (f.andThen g p (u ++ back)).reports = [] := by rw [h]
    rw [length_andThen] at hlength
    obtain ⟨hf, hg⟩ := List.append_eq_nil_iff.1 hreports
    generalize hm : (f p (u ++ back)).length = m at hlength hg
    have hle : m ≤ u.length := by omega
    rw [List.take_append_of_le_length hle, List.drop_append_of_le_length hle] at hlength hg
    refine ⟨u.take m, u.drop m, (List.take_append_drop m u).symm, ?_, ?_⟩
    · rw [Takes, ← List.append_assoc, List.take_append_drop, List.length_take_of_le hle, ← hm, ← hf]
    · have hrest : u.length - m = (g (p.after (u.take m)) (u.drop m ++ back)).length :=
        Nat.sub_eq_of_eq_add' hlength.symm
      rw [Takes, List.length_drop, hrest, ← hg]
  · rintro ⟨v, w, rfl, hf, hg⟩
    unfold Takes at hf hg ⊢
    simp only [andThen, List.append_assoc, hf, List.take_left, List.drop_left, hg,
      List.length_append, List.append_nil]

theorem takes_skip_andThen_iff {g : Rule} :
    ((skip 1).andThen g).Takes p u back ↔ ∃ c v, u = c :: v ∧ g.Takes (p.after [c]) v back := by
  rw [takes_andThen_iff]
  constructor
  · rintro ⟨v, w, rfl, hskip, hg⟩
    obtain ⟨c, rfl⟩ := List.length_eq_one_iff.1 (takes_skip_iff.1 hskip)
    exact ⟨c, w, rfl, hg⟩
  · rintro ⟨c, v, rfl, hg⟩
    exact ⟨[c], v, rfl, takes_skip_iff.2 rfl, hg⟩

end Rule

namespace Number

variable {b : Base} {p : Position} {c d : Char} {u back : List Char}

/-! ## The grammar -/

/-- Digits of the base, at least one, with an apostrophe between some neighbours. -/
inductive DigitSequence (b : Base) : List Char → Prop
  | single {c : Char} (hc : b.isDigit c = true) : DigitSequence b [c]
  | cons {c : Char} {ds : List Char} (hc : b.isDigit c = true) (h : DigitSequence b ds) :
    DigitSequence b (c :: ds)
  | apart {c : Char} {ds : List Char} (hc : b.isDigit c = true) (h : DigitSequence b ds) :
    DigitSequence b (c :: '\x27' :: ds)

/-- A decimal number: 0, or digits that start with another one. -/
inductive Decimal : List Char → Prop
  | zero : Decimal ['0']
  | digits {c : Char} {ds : List Char} (hc : c ≠ '0') (h : DigitSequence .decimal (c :: ds)) :
    Decimal (c :: ds)

/-- An exponent, or none. -/
inductive Exponent : List Char → Prop
  | none : Exponent []
  | some {e : Char} {sign ds : List Char} (he : e = 'e' ∨ e = 'E')
    (hsign : sign = [] ∨ sign = ['+'] ∨ sign = ['-']) (h : DigitSequence .decimal ds) :
    Exponent (e :: (sign ++ ds))

/-- A fraction from its decimal point on. -/
inductive Fraction : List Char → Prop
  | point {ds exponent : List Char} (h : DigitSequence .decimal ds) (he : Exponent exponent) :
    Fraction ('.' :: (ds ++ exponent))

/-- The number that is written so. -/
inductive Spelled : Token → List Char → Prop
  | decimal {cs : List Char} (h : Decimal cs) : Spelled .wholeNumber cs
  | binary {ds : List Char} (h : DigitSequence .binary ds) :
    Spelled .wholeNumber ('0' :: 'b' :: ds)
  | hexadecimal {ds : List Char} (h : DigitSequence .hexadecimal ds) :
    Spelled .wholeNumber ('0' :: 'x' :: ds)
  | charCode {ds : List Char} (h : DigitSequence .hexadecimal ds) :
    Spelled .charCode ('0' :: 'u' :: ds)
  | real {cs fraction : List Char} (h : Decimal cs) (hf : Fraction fraction) :
    Spelled .realNumber (cs ++ fraction)

/-! ## Sequences of digits -/

theorem Base.isDigit_apostrophe (b : Base) : b.isDigit '\x27' = false := by
  cases b <;> decide

namespace DigitSequence

theorem startsWithDigit (h : DigitSequence b u) : startsWithDigit b u = true := by
  cases h <;> assumption

theorem ne_of_isDigit_eq_false (h : DigitSequence b (c :: u)) (hd : b.isDigit d = false) :
    c ≠ d := by
  rintro rfl
  exact Bool.false_ne_true (hd.symm.trans h.startsWithDigit)

/-- A sequence of digits goes on behind its first digit, or behind an apostrophe. -/
theorem cons_digit_iff (hc : b.isDigit c = true) (hd : b.isDigit d = true) :
    DigitSequence b (c :: d :: u) ↔ DigitSequence b (d :: u) := by
  refine ⟨fun h => ?_, .cons hc⟩
  cases h with
  | cons _ h => exact h
  | apart => rw [b.isDigit_apostrophe] at hd; cases hd

theorem cons_apostrophe_iff (hc : b.isDigit c = true) :
    DigitSequence b (c :: '\x27' :: u) ↔ DigitSequence b u := by
  refine ⟨fun h => ?_, .apart hc⟩
  cases h with
  | cons _ h => exact absurd rfl (h.ne_of_isDigit_eq_false b.isDigit_apostrophe)
  | apart _ h => exact h

theorem goesOn_of_cons (h : DigitSequence b (c :: d :: u)) : goesOn b d = true := by
  cases h with
  | cons _ h => simp [goesOn, show b.isDigit d = true from h.startsWithDigit]
  | apart => simp [goesOn]

end DigitSequence

/-- Behind a digit, the extent of a run is all of `u` if this makes up a sequence with the digit,
and if what is behind does not go on. -/
theorem digitExtent_eq_iff (hc : b.isDigit c = true) (n : Nat) :
    digitExtent b n (u ++ back) = (n + u.length, false) ↔
      DigitSequence b (c :: u) ∧ back.head?.any (goesOn b) = false := by
  induction u generalizing c n with
  | nil =>
    refine ⟨fun h => ⟨.single hc, any_head?_of_digitExtent_le (n := n) ?_⟩, fun h => ?_⟩
    · rw [List.nil_append] at h
      rw [h]
      exact Nat.le_refl _
    · exact digitExtent_of_any_head? n h.2
  | cons d u ih =>
    have hlength : n + (d :: u).length = n + 1 + u.length := by
      rw [List.length_cons]
      omega
    rw [List.cons_append, digitExtent, hlength]
    by_cases hd : b.isDigit d = true
    · rw [if_pos hd, ih hd, DigitSequence.cons_digit_iff hc hd]
    rw [if_neg hd]
    by_cases hq : d = '\x27'
    · subst hq
      rw [if_pos rfl, DigitSequence.cons_apostrophe_iff hc]
      by_cases hs : startsWithDigit b (u ++ back) = true
      · rw [if_pos hs, ih hc]
        cases u with
        | nil =>
          -- the digit behind the apostrophe is not in `u`, and would be part of the run
          have hback : back.head?.any (goesOn b) = true := by
            rw [List.nil_append, startsWithDigit_eq] at hs
            obtain ⟨e, he, hdigit⟩ := (Option.any_eq_true _ _).1 hs
            exact (Option.any_eq_true _ _).2 ⟨e, he, by simp [goesOn, hdigit]⟩
          refine ⟨fun h => ?_, fun h => by cases h.1⟩
          rw [h.2] at hback
          cases hback
        | cons e u => rw [DigitSequence.cons_digit_iff hc hs]
      · rw [if_neg hs]
        refine ⟨fun h => (by cases congrArg Prod.snd h), fun h => absurd ?_ hs⟩
        cases u with
        | nil => cases h.1
        | cons e u => exact h.1.startsWithDigit
    · rw [if_neg hq]
      refine ⟨fun h => ?_, fun h => ?_⟩
      · have := congrArg Prod.fst h
        dsimp only at this
        omega
      · have := h.1.goesOn_of_cons
        simp [goesOn, hd, hq] at this

theorem takes_digits_of_extent :
    (digits b).Takes p u back ↔ digitExtent b 0 (u ++ back) = (0 + u.length, false) := by
  unfold Rule.Takes digits
  rcases digitExtent b 0 (u ++ back) with ⟨n, lacksDigit⟩
  cases lacksDigit <;> simp

/-- The digits behind the first one. -/
theorem takes_digits_iff (hc : b.isDigit c = true) :
    (digits b).Takes p u back ↔
      DigitSequence b (c :: u) ∧ back.head?.any (goesOn b) = false := by
  rw [takes_digits_of_extent, digitExtent_eq_iff hc]

/-- A run of digits that starts with one. -/
theorem takes_digits_of_startsWithDigit (h : startsWithDigit b (u ++ back) = true) :
    (digits b).Takes p u back ↔ DigitSequence b u ∧ back.head?.any (goesOn b) = false := by
  cases u with
  | nil =>
    have hlt := lt_digitExtent 0 h
    refine ⟨fun htakes => ?_, fun hseq => by cases hseq.1⟩
    rw [takes_digits_of_extent.1 htakes] at hlt
    exact absurd hlt (Nat.lt_irrefl _)
  | cons d u =>
    have hd : b.isDigit d = true := h
    rw [takes_digits_iff hd, DigitSequence.cons_digit_iff hd hd]

theorem takes_someDigits_iff {missing : Code} :
    (someDigits missing).Takes p u back ↔
      DigitSequence .decimal u ∧ back.head?.any (goesOn .decimal) = false := by
  by_cases h : startsWithDigit .decimal (u ++ back) = true
  · rw [← takes_digits_of_startsWithDigit h, Rule.Takes, Rule.Takes, someDigits, if_pos h]
  · refine ⟨fun htakes => ?_, fun hseq => absurd ?_ h⟩
    · rw [Rule.Takes, someDigits, if_neg h] at htakes
      cases congrArg Stretch.reports htakes
    · cases u with
      | nil => cases hseq.1
      | cons c u => exact hseq.1.startsWithDigit

/-! ## Exponents and fractions -/

theorem sign_cons (p : Position) (c : Char) (cs : List Char) :
    sign p (c :: cs) = ⟨if c = '+' ∨ c = '-' then 1 else 0, []⟩ := by
  unfold sign
  split
  · next heq => cases heq; rfl
  · next heq => cases heq; rfl
  · next hplus hminus =>
    rw [if_neg]
    · rfl
    · rintro (rfl | rfl)
      · exact hplus cs rfl
      · exact hminus cs rfl

/-- What may stand between the letter of an exponent and its digits. -/
theorem takes_sign_iff (hback : startsWithDigit .decimal back = true) :
    sign.Takes p u back ↔ u = [] ∨ u = ['+'] ∨ u = ['-'] := by
  cases u with
  | nil =>
    obtain _ | ⟨d, back⟩ := back
    · cases hback
    have hsign : ¬(d = '+' ∨ d = '-') := by
      rintro (rfl | rfl) <;> cases hback
    rw [Rule.Takes, List.nil_append, sign_cons, if_neg hsign]
    simp
  | cons c u =>
    rw [Rule.Takes, List.cons_append, sign_cons]
    split
    · next hsign => obtain rfl | rfl := hsign <;> simp [eq_comm]
    · next hsign =>
      rw [not_or] at hsign
      simp [hsign]

/-- An exponent from its letter on. -/
theorem takes_exponent_cons_iff {missing : Code} {e : Char} :
    (((Rule.skip 1).andThen sign).andThen (someDigits missing)).Takes p (e :: u) [] ↔
      ∃ sign ds, u = sign ++ ds ∧ (sign = [] ∨ sign = ['+'] ∨ sign = ['-']) ∧
        DigitSequence .decimal ds := by
  rw [Rule.takes_andThen_iff]
  constructor
  · rintro ⟨v, ds, hsplit, hv, hdigits⟩
    obtain ⟨hds, -⟩ := takes_someDigits_iff.1 hdigits
    obtain ⟨c, sign, rfl, hsign⟩ := Rule.takes_skip_andThen_iff.1 hv
    rw [List.append_nil] at hsign
    exact ⟨sign, ds, (List.cons.inj hsplit).2, (takes_sign_iff hds.startsWithDigit).1 hsign, hds⟩
  · rintro ⟨sign, ds, rfl, hsign, hds⟩
    refine ⟨e :: sign, ds, rfl, Rule.takes_skip_andThen_iff.2 ⟨e, sign, rfl, ?_⟩,
      takes_someDigits_iff.2 ⟨hds, rfl⟩⟩
    rw [List.append_nil]
    exact (takes_sign_iff hds.startsWithDigit).2 hsign

theorem takes_exponent_iff : exponent.Takes p u [] ↔ Exponent u := by
  constructor
  · intro h
    have hmarked {e : Char} (he : e = 'e' ∨ e = 'E') {cs : List Char}
        (h : (((Rule.skip 1).andThen sign).andThen (someDigits .exponentWithoutDigit)).Takes p
          (e :: cs) []) : Exponent (e :: cs) := by
      obtain ⟨sign, ds, rfl, hsign, hds⟩ := takes_exponent_cons_iff.1 h
      exact .some he hsign hds
    rw [Rule.Takes, List.append_nil] at h
    unfold exponent at h
    split at h
    · next cs => exact hmarked (.inl rfl) (by rwa [Rule.Takes, List.append_nil])
    · next cs => exact hmarked (.inr rfl) (by rwa [Rule.Takes, List.append_nil])
    · rw [List.eq_nil_of_length_eq_zero (congrArg Stretch.length h).symm]
      exact .none
  · intro h
    cases h with
    | none => rfl
    | some he hsign hds =>
      obtain rfl | rfl := he <;> exact takes_exponent_cons_iff.2 ⟨_, _, rfl, hsign, hds⟩

theorem Exponent.any_head? (h : Exponent u) : u.head?.any (goesOn .decimal) = false := by
  cases h with
  | none => rfl
  | some he => obtain rfl | rfl := he <;> rfl

theorem Fraction.startsFraction (h : Fraction u) : startsFraction u = true := by
  cases h with
  | @point ds exponent hds =>
    obtain _ | ⟨d, ds⟩ := ds
    · cases hds
    rw [startsFraction_dot, List.cons_append, List.head?_cons, Option.any_some,
      Bool.not_eq_true', decide_eq_false_iff_not]
    exact hds.ne_of_isDigit_eq_false (by decide)

theorem Fraction.any_head? (h : Fraction u) : u.head?.any (goesOn .decimal) = false := by
  cases h
  rfl

theorem eq_dot_of_startsFraction (h : startsFraction (c :: u) = true) : c = '.' :=
  Decidable.of_not_not fun hc => by simp [startsFraction, hc] at h

theorem takes_fraction_iff :
    startsFraction u = true ∧ fraction.Takes p u [] ↔ Fraction u := by
  unfold fraction
  rw [Rule.takes_andThen_iff]
  constructor
  · rintro ⟨hpoint, v, exponent, hsplit, hv, hexponent⟩
    obtain ⟨c, ds, rfl, hdigits⟩ := Rule.takes_skip_andThen_iff.1 hv
    rw [hsplit] at hpoint ⊢
    obtain rfl := eq_dot_of_startsFraction hpoint
    exact .point (takes_someDigits_iff.1 hdigits).1 (takes_exponent_iff.1 hexponent)
  · intro h
    refine ⟨h.startsFraction, ?_⟩
    obtain @⟨ds, exponent, hds, hexponent⟩ := h
    refine ⟨'.' :: ds, exponent, rfl, Rule.takes_skip_andThen_iff.2 ⟨'.', ds, rfl, ?_⟩,
      takes_exponent_iff.2 hexponent⟩
    rw [List.append_nil]
    exact takes_someDigits_iff.2 ⟨hds, hexponent.any_head?⟩

/-! ## Numbers -/

/-- The token is one for a number, and the rule that comes with it takes all of the text. -/
structure Recognizes (x : Token × Rule) (p : Position) (u : List Char) (t : Token) : Prop where
  token_eq : x.1 = t
  token_ne : t ≠ .malformedNumber
  takes : x.2.Takes p u []

variable {t : Token}

theorem recognizes_iff {x : Token × Rule} :
    Recognizes x p u t ↔ x.1 = t ∧ t ≠ .malformedNumber ∧ x.2 p u = ⟨u.length, []⟩ := by
  constructor
  · rintro ⟨htoken, hne, htakes⟩
    rw [Rule.Takes, List.append_nil] at htakes
    exact ⟨htoken, hne, htakes⟩
  · rintro ⟨htoken, hne, htakes⟩
    exact ⟨htoken, hne, by rwa [Rule.Takes, List.append_nil]⟩

theorem recognizes_based_iff (ht : t ≠ .malformedNumber) {t' : Token} :
    Recognizes (based b t u) p (c :: u) t' ↔ t = t' ∧ DigitSequence b u := by
  by_cases hs : startsWithDigit b u = true
  · rw [based, if_pos hs]
    constructor
    · rintro ⟨rfl, -, htakes⟩
      obtain ⟨e, v, hsplit, hdigits⟩ := Rule.takes_skip_andThen_iff.1 htakes
      obtain ⟨rfl, rfl⟩ := List.cons.inj hsplit
      exact ⟨rfl, ((takes_digits_of_startsWithDigit (by rwa [List.append_nil])).1 hdigits).1⟩
    · rintro ⟨rfl, hds⟩
      refine ⟨rfl, ht, Rule.takes_skip_andThen_iff.2 ⟨c, u, rfl, ?_⟩⟩
      exact (takes_digits_of_startsWithDigit (by rwa [List.append_nil])).2 ⟨hds, rfl⟩
  · rw [based, if_neg hs]
    exact ⟨fun h => absurd h.token_eq.symm h.token_ne, fun h => absurd h.2.startsWithDigit hs⟩

theorem afterZero_of_startsFraction (h : startsFraction u = true) :
    afterZero u = (.realNumber, fraction) := by
  obtain _ | ⟨c, u⟩ := u
  · cases h
  obtain rfl := eq_dot_of_startsFraction h
  simp [afterZero_cons, h]

theorem Recognizes.spelled_of_afterZero (h : Recognizes (afterZero u) p u t) :
    Spelled t ('0' :: u) := by
  cases u with
  | nil =>
    obtain ⟨rfl, -, -⟩ := h
    exact .decimal .zero
  | cons c u =>
    rw [afterZero_cons] at h
    by_cases hbin : c = 'b'
    · rw [if_pos hbin, recognizes_based_iff (by decide)] at h
      obtain ⟨rfl, hds⟩ := h
      exact hbin ▸ .binary hds
    rw [if_neg hbin] at h
    by_cases hhex : c = 'x'
    · rw [if_pos hhex, recognizes_based_iff (by decide)] at h
      obtain ⟨rfl, hds⟩ := h
      exact hhex ▸ .hexadecimal hds
    rw [if_neg hhex] at h
    by_cases hcode : c = 'u'
    · rw [if_pos hcode, recognizes_based_iff (by decide)] at h
      obtain ⟨rfl, hds⟩ := h
      exact hcode ▸ .charCode hds
    rw [if_neg hcode] at h
    by_cases hpoint : startsFraction (c :: u) = true
    · rw [if_pos hpoint] at h
      obtain ⟨rfl, -, htakes⟩ := h
      exact .real .zero (takes_fraction_iff.1 ⟨hpoint, htakes⟩)
    rw [if_neg hpoint] at h
    -- nothing but the 0 would be taken
    have hnone : (Rule.skip 0).Takes p (c :: u) [] := by
      split at h <;> exact h.takes
    cases Rule.takes_skip_iff.1 hnone

theorem Spelled.recognizes_afterZero (h : Spelled t ('0' :: u)) :
    Recognizes (afterZero u) p u t := by
  generalize hcs : '0' :: u = cs at h
  cases h with
  | decimal h =>
    cases h with
    | zero =>
      obtain rfl := (List.cons.inj hcs).2
      exact ⟨rfl, by decide, rfl⟩
    | digits hc => exact absurd (List.cons.inj hcs).1.symm hc
  | binary h | hexadecimal h | charCode h =>
    obtain rfl := (List.cons.inj hcs).2
    exact (recognizes_based_iff (by decide)).2 ⟨rfl, h⟩
  | real h hf =>
    cases h with
    | zero =>
      obtain rfl := (List.cons.inj hcs).2
      obtain ⟨hpoint, htakes⟩ := takes_fraction_iff.2 hf
      rw [afterZero_of_startsFraction hpoint]
      exact ⟨rfl, by decide, htakes⟩
    | digits hc => exact absurd (List.cons.inj hcs).1.symm hc

/-- A number that starts with 0. -/
theorem recognizes_afterZero_iff : Recognizes (afterZero u) p u t ↔ Spelled t ('0' :: u) :=
  ⟨Recognizes.spelled_of_afterZero, Spelled.recognizes_afterZero⟩

theorem afterDigit_of_takes (h : (digits .decimal).Takes p u back) :
    afterDigit (u ++ back) =
      if startsFraction back then (.realNumber, (digits .decimal).andThen fraction)
      else (.wholeNumber, digits .decimal) := by
  rw [afterDigit, takes_digits_of_extent.1 h, Nat.zero_add, List.drop_left]

theorem Recognizes.spelled_of_afterDigit (hc : Base.decimal.isDigit c = true) (hzero : c ≠ '0')
    (h : Recognizes (afterDigit u) p u t) : Spelled t (c :: u) := by
  unfold afterDigit at h
  split at h
  · next hpoint =>
    obtain ⟨rfl, -, htakes⟩ := h
    obtain ⟨v, w, rfl, hdigits, hw⟩ := Rule.takes_andThen_iff.1 htakes
    have hextent := takes_digits_of_extent.1 hdigits
    rw [List.append_nil, Nat.zero_add] at hextent
    rw [hextent, List.drop_left] at hpoint
    exact .real (.digits hzero ((takes_digits_iff hc).1 hdigits).1)
      (takes_fraction_iff.1 ⟨hpoint, hw⟩)
  · obtain ⟨rfl, -, htakes⟩ := h
    exact .decimal (.digits hzero ((takes_digits_iff hc).1 htakes).1)

theorem Spelled.recognizes_afterDigit (hc : Base.decimal.isDigit c = true) (hzero : c ≠ '0')
    (h : Spelled t (c :: u)) : Recognizes (afterDigit u) p u t := by
  generalize hcs : c :: u = cs at h
  cases h with
  | decimal h =>
    cases h with
    | zero => exact absurd (List.cons.inj hcs).1 hzero
    | digits _ hds =>
      obtain ⟨rfl, rfl⟩ := List.cons.inj hcs
      have htakes : (digits .decimal).Takes p u [] := (takes_digits_iff hc).2 ⟨hds, rfl⟩
      have hafter := afterDigit_of_takes htakes
      rw [List.append_nil] at hafter
      rw [hafter]
      exact ⟨rfl, by decide, htakes⟩
  | binary | hexadecimal | charCode => exact absurd (List.cons.inj hcs).1 hzero
  | @real _ w h hf =>
    cases h with
    | zero => exact absurd (List.cons.inj hcs).1 hzero
    | @digits _ v _ hds =>
      obtain ⟨rfl, rfl⟩ := List.cons.inj hcs
      obtain ⟨hpoint, hw⟩ := takes_fraction_iff.2 hf
      have htakes : (digits .decimal).Takes p v w := (takes_digits_iff hc).2 ⟨hds, hf.any_head?⟩
      rw [show v.append w = v ++ w from rfl, afterDigit_of_takes htakes, if_pos hpoint]
      refine ⟨rfl, by decide, Rule.takes_andThen_iff.2 ⟨v, w, rfl, ?_, hw⟩⟩
      rwa [List.append_nil]

/-- A number that starts with another digit. -/
theorem recognizes_afterDigit_iff (hc : Base.decimal.isDigit c = true) (hzero : c ≠ '0') :
    Recognizes (afterDigit u) p u t ↔ Spelled t (c :: u) :=
  ⟨Recognizes.spelled_of_afterDigit hc hzero, Spelled.recognizes_afterDigit hc hzero⟩

theorem recognizes_kindOf_iff (hc : c.isDigit = true) :
    Recognizes (kindOf c u) p u t ↔ Spelled t (c :: u) := by
  unfold kindOf
  by_cases hzero : c = '0'
  · rw [if_pos hzero, hzero]
    exact recognizes_afterZero_iff
  · rw [if_neg hzero]
    exact recognizes_afterDigit_iff hc hzero

/-- A text that starts with a digit is one number without a fault exactly if it is spelled like
one. -/
theorem read_iff_spelled (hc : c.isDigit = true) (rest : List Char) :
    (read p c rest).token = t ∧ (read p c rest).length = rest.length + 1 ∧
      (read p c rest).reports = [] ↔ Spelled t (c :: rest) := by
  rw [← recognizes_kindOf_iff (p := p.next c) hc, recognizes_iff]
  unfold read kindOf
  rcases (if c = '0' then afterZero rest else afterDigit rest) with ⟨token, rule⟩
  dsimp only
  split
  · next hmalformed =>
    constructor
    · intro h
      exact absurd h.2.2 (by simp)
    · rintro ⟨htoken, hne, htakes⟩
      -- nothing is left behind what the rule takes
      rw [htakes, List.drop_length] at hmalformed
      exact hmalformed.elim (fun h => absurd (htoken.symm.trans h) hne) fun h => absurd rfl h
  · next hplain =>
    dsimp only
    constructor
    · rintro ⟨htoken, hlength, hreports⟩
      refine ⟨htoken, fun h => hplain (.inl (htoken.trans h)), ?_⟩
      rw [← hreports, show rest.length = (rule (p.next c) rest).length by omega]
    · rintro ⟨htoken, -, htakes⟩
      rw [htakes]
      exact ⟨htoken, Nat.add_comm _ _, rfl⟩

end Number

end Modula
