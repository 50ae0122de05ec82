import Modula.Proofs.Prediction

/-!
# Viable prefixes

While symbols are read for an expression of the grammar, two things can come out. Either what was
read is derived by the expression, and given the next symbol no other way of going on is left: the
reading is exact. Or no continuation is left at all with the next symbol, although there was one
without it: the next symbol is the first one that cannot be right. Both are relative to the tokens
that may stand behind the expression.
-/

namespace Modula.Ebnf

variable {d : Dialect} {a b : Ebnf} {F G : TokenSet} {u v : List Symbol} {s t : Symbol}

/-! ## Algebra -/

/-- The expressions derive the same symbols. -/
def Same (d : Dialect) (a b : Ebnf) : Prop := a.language d = b.language d

theorem Same.derives_iff (h : Same d a b) (u : List Symbol) : Derives d a u ↔ Derives d b u :=
  iff_of_eq (congrArg (fun l : Language Symbol => u ∈ l) h)

theorem Same.symm (h : Same d a b) : Same d b a := Eq.symm h

theorem mem_language : u ∈ a.language d ↔ Derives d a u := Iff.rfl

@[simp]
theorem language_empty : empty.language d = 1 := by
  ext u
  rw [Language.mem_one, mem_language]
  constructor
  · intro h
    cases h
    rfl
  · rintro rfl
    exact .empty

@[simp]
theorem language_seq : (seq a b).language d = a.language d * b.language d := by
  ext u
  rw [Language.mem_mul]
  constructor
  · intro h
    cases h with
    | seq ha hb => exact ⟨_, ha, _, hb, rfl⟩
  · rintro ⟨v, hv, w, hw, rfl⟩
    exact .seq hv hw

@[simp]
theorem language_either : (either a b).language d = a.language d + b.language d := by
  ext u
  rw [Language.mem_add]
  constructor
  · intro h
    cases h with
    | left h => exact .inl h
    | right h => exact .inr h
  · rintro (h | h)
    · exact .left h
    · exact .right h

/-- A repetition is nothing, or once the repeated thing and then the repetition again. -/
theorem language_many :
    (many a).language d = 1 + a.language d * (many a).language d := by
  ext u
  rw [Language.mem_add, Language.mem_one, Language.mem_mul]
  constructor
  · intro h
    cases h with
    | none => exact .inl rfl
    | more ha hm => exact .inr ⟨_, ha, _, hm, rfl⟩
  · rintro (rfl | ⟨v, hv, w, hw, rfl⟩)
    · exact .none
    · exact .more hv hw

@[simp]
theorem language_option : (option a).language d = 1 + a.language d := by
  rw [option, language_either, language_empty]

theorem same_rule (n : Nonterminal) : Same d (rule n) (production d n) := by
  ext u
  constructor
  · intro h
    cases h with
    | rule h => exact h
  · exact .rule

theorem same_rule_seq (n : Nonterminal) (b : Ebnf) :
    Same d (seq (rule n) b) (seq (production d n) b) := by
  have h : (rule n).language d = (production d n).language d := same_rule n
  rw [Same, language_seq, language_seq, h]

theorem same_many : Same d (many a) (option (seq a (many a))) := by
  rw [Same, language_option, language_seq, ← language_many]

/-- What is repeated behind a list may be read as part of a list again. -/
theorem same_list (separator : Token) :
    Same d (list separator a) (seq a (option (seq (word separator) (list separator a)))) := by
  unfold Same list
  simp only [language_seq, language_option]
  conv_lhs => rw [language_many, language_seq, mul_assoc]

theorem same_seq_assoc (a b c : Ebnf) : Same d (seq (seq a b) c) (seq a (seq b c)) := by
  rw [Same, language_seq, language_seq, language_seq, language_seq, mul_assoc]

/-- What may stand in front of something is read with it or left out with it. -/
theorem same_option_seq (a b : Ebnf) : Same d (seq (option a) b) (either b (seq a b)) := by
  rw [Same, language_seq, language_option, language_either, language_seq, add_mul, one_mul]

theorem same_either_seq (a b c : Ebnf) :
    Same d (seq (either a b) c) (either (seq a c) (seq b c)) := by
  rw [Same, language_seq, language_either, language_either, language_seq, language_seq, add_mul]

theorem same_seq_empty (a : Ebnf) : Same d (seq a empty) a := by
  rw [Same, language_seq, language_empty, mul_one]

/-! ## Exact readings and dead ends -/

/-- The symbols `u` are derived, and with `s` behind them they cannot be read in another way. -/
structure Exact (d : Dialect) (a : Ebnf) (F : TokenSet) (u : List Symbol) (s : Symbol) : Prop where
  derives : Derives d a u
  unique : ∀ x y, Derives d a x → BeginsIn F y → u ++ [s] <+: x ++ y → x = u

/-- The symbols `u` can be continued, but not with `s`. -/
structure DeadEnd (d : Dialect) (a : Ebnf) (F : TokenSet) (u : List Symbol) (s : Symbol) :
    Prop where
  unviable : ∀ x y, Derives d a x → BeginsIn F y → ¬u ++ [s] <+: x ++ y
  viable : ∃ z, Derives d a (u ++ z)

theorem Exact.mono (h : Exact d a G u s) (hFG : F.isSubsetOf G = true) : Exact d a F u s :=
  ⟨h.derives, fun x y hx hy => h.unique x y hx (hy.mono hFG)⟩

theorem DeadEnd.mono (h : DeadEnd d a G u s) (hFG : F.isSubsetOf G = true) :
    DeadEnd d a F u s :=
  ⟨fun x y hx hy => h.unviable x y hx (hy.mono hFG), h.viable⟩

theorem Exact.congr (h : Exact d a F u s) (hab : Same d a b) : Exact d b F u s :=
  ⟨(hab.derives_iff u).1 h.derives,
    fun x y hx => h.unique x y ((hab.derives_iff x).2 hx)⟩

theorem DeadEnd.congr (h : DeadEnd d a F u s) (hab : Same d a b) : DeadEnd d b F u s := by
  obtain ⟨hun, z, hz⟩ := h
  exact ⟨fun x y hx => hun x y ((hab.derives_iff x).2 hx), z, (hab.derives_iff _).1 hz⟩

/-- Where symbols go on as the grammar lets them, the first of them is predicted. -/
theorem mem_firstWith_of_begins {x y : List Symbol} (hx : Derives d a x) (hy : BeginsIn F y)
    (h : s :: u <+: x ++ y) : s.token ∈ a.firstWith F := by
  obtain ⟨r, w, hrw, hr⟩ := hx.beginsIn hy
  rw [hrw] at h
  obtain ⟨rfl, -⟩ := List.cons_prefix_cons.1 h
  exact hr

/-- A symbol that is not predicted. -/
theorem DeadEnd.of_not_mem (h : s.token ∉ a.firstWith F) : DeadEnd d a F [] s := by
  refine ⟨fun x y hx hy hpre => h (mem_firstWith_of_begins hx hy hpre), ?_⟩
  obtain ⟨z, hz⟩ := exists_derives d a
  exact ⟨z, hz⟩

theorem Exact.empty : Exact d empty F [] s := by
  refine ⟨.empty, fun x y hx _ _ => ?_⟩
  cases hx
  rfl

theorem Exact.oneOf {t : Token} {ts : List Token} (h : d.Reads (t :: ts) s.token) (r : Symbol) :
    Exact d (oneOf t ts) F [s] r := by
  refine ⟨.oneOf s h, fun x y hx _ hpre => ?_⟩
  cases hx with
  | oneOf q hq =>
    obtain ⟨rfl, -⟩ := List.cons_prefix_cons.1 hpre
    rfl

theorem Exact.ident {text? : Option String} (h : d.Reads identifiers s.token)
    (htext : ∀ text ∈ text?, s.text = text) (r : Symbol) :
    Exact d (ident text?) F [s] r := by
  refine ⟨.ident s h htext, fun x y hx _ hpre => ?_⟩
  cases hx with
  | ident q hq hqtext =>
    obtain ⟨rfl, -⟩ := List.cons_prefix_cons.1 hpre
    rfl

/-- An identifier that is spelled differently. -/
theorem DeadEnd.ident_of_text_ne {text : String} (h : s.text ≠ text) :
    DeadEnd d (Ebnf.ident (some text)) F [] s := by
  refine ⟨fun x y hx _ hpre => ?_, ?_⟩
  · cases hx with
    | ident q _ hq =>
      obtain ⟨rfl, -⟩ := List.cons_prefix_cons.1 hpre
      exact h (hq text rfl)
  · obtain ⟨z, hz⟩ := exists_derives d (Ebnf.ident (some text))
    exact ⟨z, hz⟩

/-! ## One thing and then another -/

/-- The symbol `s` comes first of those in `v` and the one behind them. -/
def Leads (s : Symbol) (v : List Symbol) (t : Symbol) : Prop := ∃ w, v ++ [t] = s :: w

theorem prefix_of_leads {x : List Symbol} (hs : Leads s v t) (h : (u ++ v) ++ [t] <+: x) :
    u ++ [s] <+: x := by
  obtain ⟨w, hw⟩ := hs
  rw [List.append_assoc, hw, List.append_cons] at h
  exact (List.prefix_append _ _).trans h

theorem Exact.seq (ha : Exact d a (b.firstWith F) u s) (hb : Exact d b F v t)
    (hs : Leads s v t) : Exact d (seq a b) F (u ++ v) t := by
  refine ⟨.seq ha.derives hb.derives, fun x y hx hy hpre => ?_⟩
  cases hx with
  | @seq _ _ xa xb hxa hxb =>
    rw [List.append_assoc xa] at hpre
    obtain rfl := ha.unique xa (xb ++ y) hxa (hxb.beginsIn hy) (prefix_of_leads hs hpre)
    rw [List.append_assoc, List.prefix_append_right_inj] at hpre
    rw [hb.unique xb y hxb hy hpre]

theorem DeadEnd.seq_left (ha : DeadEnd d a (b.firstWith F) u s) :
    DeadEnd d (Ebnf.seq a b) F u s := by
  obtain ⟨hun, z, hz⟩ := ha
  refine ⟨fun x y hx hy hpre => ?_, ?_⟩
  · cases hx with
    | @seq _ _ xa xb hxa hxb =>
      rw [List.append_assoc xa] at hpre
      exact hun xa (xb ++ y) hxa (hxb.beginsIn hy) hpre
  · obtain ⟨w, hw⟩ := exists_derives d b
    refine ⟨z ++ w, ?_⟩
    rw [← List.append_assoc]
    exact .seq hz hw

theorem DeadEnd.seq_right (ha : Exact d a (b.firstWith F) u s) (hb : DeadEnd d b F v t)
    (hs : Leads s v t) : DeadEnd d (Ebnf.seq a b) F (u ++ v) t := by
  obtain ⟨hun, z, hz⟩ := hb
  refine ⟨fun x y hx hy hpre => ?_, z, ?_⟩
  · cases hx with
    | @seq _ _ xa xb hxa hxb =>
      rw [List.append_assoc xa] at hpre
      obtain rfl := ha.unique xa (xb ++ y) hxa (hxb.beginsIn hy) (prefix_of_leads hs hpre)
      rw [List.append_assoc, List.prefix_append_right_inj] at hpre
      exact hun xb y hxb hy hpre
  · rw [List.append_assoc]
    exact .seq ha.derives hz

/-! ## One thing or another -/

/-- The alternative that was not taken cannot go on with the symbol that decided. -/
theorem not_prefix_of_leads {r : Symbol} (hr : Leads r u s) (hF : r.token ∉ a.firstWith F)
    {x y : List Symbol} (hx : Derives d a x) (hy : BeginsIn F y) : ¬u ++ [s] <+: x ++ y := by
  obtain ⟨w, hw⟩ := hr
  rw [hw]
  exact fun hpre => hF (mem_firstWith_of_begins hx hy hpre)

theorem Exact.left {r : Symbol} (h : Exact d a F u s) (hr : Leads r u s)
    (hF : r.token ∉ b.firstWith F) : Exact d (either a b) F u s := by
  refine ⟨.left h.derives, fun x y hx hy hpre => ?_⟩
  cases hx with
  | left hx => exact h.unique x y hx hy hpre
  | right hx => exact absurd hpre (not_prefix_of_leads hr hF hx hy)

theorem Exact.right {r : Symbol} (h : Exact d b F u s) (hr : Leads r u s)
    (hF : r.token ∉ a.firstWith F) : Exact d (either a b) F u s := by
  refine ⟨.right h.derives, fun x y hx hy hpre => ?_⟩
  cases hx with
  | left hx => exact absurd hpre (not_prefix_of_leads hr hF hx hy)
  | right hx => exact h.unique x y hx hy hpre

theorem DeadEnd.left {r : Symbol} (h : DeadEnd d a F u s) (hr : Leads r u s)
    (hF : r.token ∉ b.firstWith F) : DeadEnd d (either a b) F u s := by
  obtain ⟨hun, z, hz⟩ := h
  refine ⟨fun x y hx hy hpre => ?_, z, .left hz⟩
  cases hx with
  | left hx => exact hun x y hx hy hpre
  | right hx => exact not_prefix_of_leads hr hF hx hy hpre

theorem DeadEnd.right {r : Symbol} (h : DeadEnd d b F u s) (hr : Leads r u s)
    (hF : r.token ∉ a.firstWith F) : DeadEnd d (either a b) F u s := by
  obtain ⟨hun, z, hz⟩ := h
  refine ⟨fun x y hx hy hpre => ?_, z, .right hz⟩
  cases hx with
  | left hx => exact not_prefix_of_leads hr hF hx hy hpre
  | right hx => exact hun x y hx hy hpre

/-! ## Named constructs -/

/-- What closes a construct that was opened with the identifier. -/
def closer (spelled : Bool) (s : Symbol) : Ebnf := ident (if spelled then some s.text else none)

theorem derives_closed_seq_iff {spelled : Bool} {x : List Symbol} :
    Derives d (seq (closed spelled a) b) x ↔ ∃ s x', x = s :: x' ∧ d.Reads identifiers s.token ∧
      Derives d (seq a (seq (closer spelled s) b)) x' := by
  constructor
  · intro h
    cases h with
    | @seq _ _ _ v ha hb =>
      cases ha with
      | @closed _ _ u s t hs hu ht =>
        cases hs with
        | ident _ hs =>
          refine ⟨s, u ++ [t] ++ v, rfl, hs, ?_⟩
          rw [List.append_assoc]
          exact .seq hu (.seq ht hb)
  · rintro ⟨s, x', rfl, hs, h⟩
    cases h with
    | seq hu h =>
      cases h with
      | seq ht hb =>
        cases ht with
        | ident t ht htext =>
          have hclosed : Derives d (closed spelled a) _ :=
            .closed s t (.ident s hs (by simp)) hu (.ident t ht htext)
          rw [← List.append_assoc]
          exact .seq hclosed hb

theorem Exact.closed_seq {spelled : Bool} (hs : d.Reads identifiers s.token)
    (h : Exact d (Ebnf.seq a (Ebnf.seq (closer spelled s) b)) F u t) :
    Exact d (Ebnf.seq (closed spelled a) b) F (s :: u) t := by
  refine ⟨derives_closed_seq_iff.2 ⟨s, u, rfl, hs, h.derives⟩, fun x y hx hy hpre => ?_⟩
  obtain ⟨r, x', rfl, -, hx'⟩ := derives_closed_seq_iff.1 hx
  rw [List.cons_append, List.cons_append] at hpre
  obtain ⟨rfl, hlater⟩ := List.cons_prefix_cons.1 hpre
  rw [h.unique x' y hx' hy hlater]

theorem DeadEnd.closed_seq {spelled : Bool} (hs : d.Reads identifiers s.token)
    (h : DeadEnd d (Ebnf.seq a (Ebnf.seq (closer spelled s) b)) F u t) :
    DeadEnd d (Ebnf.seq (closed spelled a) b) F (s :: u) t := by
  obtain ⟨hun, z, hz⟩ := h
  refine ⟨fun x y hx hy hpre => ?_, z, derives_closed_seq_iff.2 ⟨s, u ++ z, rfl, hs, hz⟩⟩
  obtain ⟨r, x', rfl, -, hx'⟩ := derives_closed_seq_iff.1 hx
  rw [List.cons_append, List.cons_append] at hpre
  obtain ⟨rfl, hlater⟩ := List.cons_prefix_cons.1 hpre
  exact hun x' y hx' hy hlater

end Modula.Ebnf
