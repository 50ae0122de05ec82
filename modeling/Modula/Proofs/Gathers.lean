import Modula.Proofs.Stream
import Modula.Proofs.Values
import Modula.Proofs.Yields

/-!
# Rules that gather values

A rule reads some symbols and answers something that carries values. What is said of it has two
parts. In any case the values are among those of the symbols read, in their order. And where no
symbol was unexpected, the values are those of all symbols read, except behind `END`.

For the second part it matters where a rule starts and where it stops: a name behind `END` is
dropped by the rule that closes a unit or a procedure, and no other rule may find one there. So a
rule is given with what must hold in front of it, of the next token and of whether `END` was read
last, and with what holds behind it. An unexpected symbol gives up the second part, so that nothing
needs to hold behind its report.
-/

namespace Modula

/-! ## Reading -/

namespace Progress

/-- How many symbols were unexpected so far. -/
def surprises (p : Progress) : Nat := p.recorded (· = .unexpectedSymbol)

theorem surprises_report (p : Progress) (d : Diagnostic) :
    (p.report d).surprises = p.surprises + if d.code = .unexpectedSymbol then 1 else 0 := by
  rw [surprises, recorded_report, surprises]
  simp

/-- Reading goes from one progress to another over the symbols of a row. -/
structure Reads (p : Progress) (w : List Symbol) (q : Progress) : Prop where
  closed : q.Closed
  rest : p.rest = w ++ q.rest
  surprises : p.surprises ≤ q.surprises

variable {p q r : Progress} {v w : List Symbol}

namespace Reads

theorem refl (h : p.Closed) : p.Reads [] p := ⟨h, rfl, Nat.le_refl _⟩

theorem trans (h : p.Reads v q) (h' : q.Reads w r) : p.Reads (v ++ w) r :=
  ⟨h'.closed, by rw [h.rest, h'.rest, List.append_assoc], Nat.le_trans h.surprises h'.surprises⟩

theorem report (h : p.Closed) (d : Diagnostic) : p.Reads [] (p.report d) :=
  ⟨h, rfl, by rw [surprises_report]; exact Nat.le_add_right _ _⟩

theorem count (h : p.Closed) (f : Statistics → Statistics) : p.Reads [] (p.count f) :=
  ⟨h, rfl, Nat.le_refl _⟩

/-- Where it is not the end of the source, the next symbol is read. -/
theorem advance (h : p.Closed) (ht : p.lookahead.token ≠ .endOfFile) :
    p.Reads [p.lookahead] p.advance :=
  ⟨h.advance, h.rest_eq_cons ht, recorded_le_advance p⟩

/-- At the end of the source nothing is read. -/
theorem exists_advance (h : p.Closed) : ∃ w, p.Reads w p.advance := by
  by_cases ht : p.lookahead.token = .endOfFile
  · have hadv : p.advance = p := by rw [Progress.advance, h.ahead_eq_nil_iff.2 ht]
    rw [hadv]
    exact ⟨[], .refl h⟩
  · exact ⟨_, .advance h ht⟩

theorem exists_skipTo (h : p.Closed) (s : TokenSet) : ∃ w, p.Reads w (p.skipTo s) := by
  refine skipTo_induction (motive := fun q => ∃ w, p.Reads w q) s ?_ p ⟨[], .refl h⟩
  rintro q ⟨v, hv⟩
  obtain ⟨w, hw⟩ := exists_advance hv.closed
  exact ⟨v ++ w, hv.trans hw⟩

end Reads

end Progress

/-! ## What holds in front of a rule and behind it -/

/-- Not behind `END`. -/
def Fresh (b : Bool) : Prop := b = false

/-- Behind `END`. -/
def Ended (b : Bool) : Prop := b = true

/-- Behind `END` or not. -/
def Free (_ : Bool) : Prop := True

/-- Nowhere, since a symbol was unexpected. -/
def Nowhere (_ : Bool) : Prop := False

theorem Fresh.free (b : Bool) (_ : Fresh b) : Free b := trivial

/-- The token is a word or a sign inside a construct: it becomes no node and is not `END`. -/
def Token.IsInner (t : Token) : Prop := t.terminalKind? = none ∧ t ≠ .endOfFile ∧ t ≠ .kwEnd

instance (t : Token) : Decidable t.IsInner := inferInstanceAs (Decidable (_ ∧ _))

namespace Parser

open Progress Grammar

variable {α β : Type}

/-- The rule gathers values where the next token is one of `S`: what it answers and what it has
gathered are related by `P`. In front of it `E` is said of whether `END` was read last, behind it
`C`, which may depend on the answer. -/
def Gathers (S : Token → Prop) (E : Bool → Prop) (P : α → List Entry → Prop)
    (C : α → Bool → Prop) (m : Parser α) : Prop :=
  ∀ p a q, p.Closed → S p.lookahead.token → m.exec p = (.ok a, q) →
    ∃ w u, p.Reads w q ∧ u.Sublist (entries w) ∧ P a u ∧
      (q.surprises = p.surprises → ∀ b, E b →
        u = entries (notBehindEnd b w) ∧ C a (behindEnd b w))

/-- Nothing was gathered. -/
def Nothing {α : Type} (_ : α) (u : List Entry) : Prop := u = []

/-- The tree carries what was gathered. -/
abbrev Given (t : Node) (u : List Entry) : Prop := Carry [t] u

/-- What holds behind a round, according to whether there may be another one. -/
def Round.Leaves (M D : α → Bool → Prop) : Round α → Bool → Prop
  | .more a => M a
  | .done a => D a

namespace Gathers

variable {S : Token → Prop} {E : Bool → Prop} {P : α → List Entry → Prop}
  {C : α → Bool → Prop} {Q : β → List Entry → Prop} {D : β → Bool → Prop}

/-! ### Putting rules together -/

/-- A rule that stops answers nothing. -/
theorem stop {s : Stop} : Gathers S E P C (throw s) := fun _ _ _ _ _ => nofun

theorem pure {a : α} (hP : P a []) (hC : ∀ b, E b → C a b) : Gathers S E P C (pure a) := by
  intro p x q hp _ hm
  cases hm
  exact ⟨[], [], .refl hp, .slnil, hP, fun _ b hb => ⟨rfl, hC b hb⟩⟩

/-- What is said behind the first rule is said in front of the second. -/
theorem bind {m : Parser α} {k : α → Parser β} (hm : Gathers S E P C m)
    (hk : ∀ a u, P a u → Gathers (fun _ => True) (C a) (fun x v => Q x (u ++ v)) D (k a)) :
    Gathers S E Q D (m >>= k) := by
  intro p x q hp hS h
  obtain ⟨a, r, hr, hq⟩ := exec_bind_eq_ok.1 h
  obtain ⟨v, u, hpr, hu, hP, hexact⟩ := hm p a r hp hS hr
  obtain ⟨w, u', hrq, hu', hQ, hexact'⟩ := hk a u hP r x q hpr.closed trivial hq
  refine ⟨v ++ w, u ++ u', hpr.trans hrq, ?_, hQ, fun hs b hb => ?_⟩
  · rw [entries_append]
    exact hu.append hu'
  · have hle := hpr.surprises
    have hle' := hrq.surprises
    obtain ⟨hev, hC⟩ := hexact (by omega) b hb
    obtain ⟨hew, hD⟩ := hexact' (by omega) (behindEnd b v) hC
    rw [behindEnd_append, notBehindEnd_append, entries_append, ← hev, ← hew]
    exact ⟨rfl, hD⟩

/-- A rule that gathers nothing, and another one. -/
theorem skip {m : Parser α} {k : α → Parser β} (hm : Gathers S E Nothing C m)
    (hk : ∀ a, Gathers (fun _ => True) (C a) Q D (k a)) : Gathers S E Q D (m >>= k) :=
  hm.bind fun a u hu => by
    obtain rfl : u = [] := hu
    exact hk a

/-- More may hold in front, and less need hold behind. -/
theorem mono {T : Token → Prop} {E' : Bool → Prop} {P' : α → List Entry → Prop}
    {C' : α → Bool → Prop} {m : Parser α} (h : Gathers S E P C m) (hS : ∀ t, T t → S t)
    (hE : ∀ b, E' b → E b) (hP : ∀ a u, P a u → P' a u) (hC : ∀ a b, C a b → C' a b) :
    Gathers T E' P' C' m := by
  intro p a q hp hT hm
  obtain ⟨w, u, hr, hu, ha, hexact⟩ := h p a q hp (hS _ hT) hm
  refine ⟨w, u, hr, hu, hP a u ha, fun hs b hb => ?_⟩
  obtain ⟨he, hc⟩ := hexact hs b (hE b hb)
  exact ⟨he, hC a _ hc⟩

theorem whenAt {T : Token → Prop} {m : Parser α} (h : Gathers S E P C m)
    (hS : ∀ t, T t → S t) : Gathers T E P C m :=
  h.mono hS (fun _ => id) (fun _ _ => id) fun _ _ => id

theorem behind {C' : α → Bool → Prop} {m : Parser α} (h : Gathers S E P C m)
    (hC : ∀ a b, C a b → C' a b) : Gathers S E P C' m :=
  h.mono (fun _ => id) (fun _ => id) (fun _ _ => id) hC

theorem imp {P' : α → List Entry → Prop} {m : Parser α} (h : Gathers S E P C m)
    (hP : ∀ a u, P a u → P' a u) : Gathers S E P' C m :=
  h.mono (fun _ => id) (fun _ => id) hP fun _ _ => id

theorem map {f : α → β} {m : Parser α}
    (h : Gathers S E (fun a u => Q (f a) u) (fun a b => D (f a) b) m) :
    Gathers S E Q D (f <$> m) := by
  rw [← bind_pure_comp]
  exact h.bind fun a u ha => .pure (by simpa using ha) fun _ => id

theorem ifAt {t : Token} {yes no : Parser α} (hy : Gathers (· = t) E P C yes)
    (hn : Gathers (fun u => S u ∧ u ≠ t) E P C no) : Gathers S E P C (ifAt t yes no) := by
  intro p a q hp hS hm
  rw [exec_ifAt] at hm
  split at hm
  · next ht => exact hy p a q hp ht hm
  · next ht => exact hn p a q hp ⟨hS, ht⟩ hm

theorem ifAtAny {s : TokenSet} {yes no : Parser α} (hy : Gathers (· ∈ s) E P C yes)
    (hn : Gathers (fun t => S t ∧ t ∉ s) E P C no) : Gathers S E P C (ifAtAny s yes no) := by
  intro p a q hp hS hm
  rw [exec_ifAtAny] at hm
  split at hm
  · next ht => exact hy p a q hp ht hm
  · next ht => exact hn p a q hp ⟨hS, ht⟩ hm

/-- A choice by the next token. -/
theorem choose {k : Token → Parser α} (h : ∀ t, S t → Gathers (· = t) E P C (k t)) :
    Gathers S E P C (token >>= k) := by
  intro p a q hp hS hm
  rw [exec_bind, exec_token, proceed_ok] at hm
  exact h p.lookahead.token hS p a q hp rfl hm

/-! ### Operations -/

/-- The rule looks at the next symbol, and perhaps reports something at it. -/
def Looks (m : Parser α) : Prop :=
  ∀ p, ∃ a, m.exec p = (.ok a, p) ∨ ∃ d, m.exec p = (.ok a, p.report d)

theorem look {m : Parser α} (h : Looks m) : Gathers S E Nothing (fun _ => E) m := by
  intro p a q hp _ hm
  obtain ⟨x, hx | ⟨d, hx⟩⟩ := h p
  · rw [hx] at hm
    cases hm
    exact ⟨[], [], .refl hp, .slnil, rfl, fun _ b hb => ⟨rfl, hb⟩⟩
  · rw [hx] at hm
    cases hm
    exact ⟨[], [], .report hp d, .slnil, rfl, fun _ b hb => ⟨rfl, hb⟩⟩

/-- Behind a look the next symbol is still the same. -/
theorem look_bind {m : Parser α} (h : Looks m) {k : α → Parser β}
    (hk : ∀ a, Gathers S E Q D (k a)) : Gathers S E Q D (m >>= k) := by
  intro p x q hp hS hm
  obtain ⟨a, r, hr, hq⟩ := exec_bind_eq_ok.1 hm
  obtain ⟨y, hy | ⟨d, hy⟩⟩ := h p
  · rw [hy] at hr
    cases hr
    exact hk _ p x q hp hS hq
  · rw [hy] at hr
    cases hr
    obtain ⟨w, u, hread, hu, hP, hexact⟩ := hk _ _ x q (Reads.report hp d).closed hS hq
    have hfirst := (Reads.report hp d).surprises
    have hlater := hread.surprises
    exact ⟨w, u, (Reads.report hp d).trans hread, hu, hP, fun hs => hexact (by omega)⟩

theorem token : Gathers S E Nothing (fun _ => E) token := look fun _ => ⟨_, .inl rfl⟩

theorem lookahead : Gathers S E Nothing (fun _ => E) lookahead := look fun _ => ⟨_, .inl rfl⟩

theorem report (d : Diagnostic) : Gathers S E Nothing (fun _ => E) (report d) :=
  look fun _ => ⟨(), .inr ⟨d, rfl⟩⟩

theorem count (f : Statistics → Statistics) : Gathers S E Nothing (fun _ => E) (count f) := by
  intro p a q hp _ hm
  cases hm
  exact ⟨[], [], .count hp f, .slnil, rfl, fun _ b hb => ⟨rfl, hb⟩⟩

/-- Behind an unexpected symbol the second part is given up. -/
theorem unexpected (e : Expected) : Gathers S E Nothing (fun _ => Nowhere) (unexpected e) := by
  intro p a q hp _ hm
  rw [exec_unexpected] at hm
  cases hm
  refine ⟨[], [], .report hp _, .slnil, rfl, fun hs => ?_⟩
  have hmore := surprises_report p (surprise p e)
  rw [if_pos (show (surprise p e).code = .unexpectedSymbol from rfl)] at hmore
  omega

theorem skipTo (s : TokenSet) {C : Unit → Bool → Prop} :
    Gathers S Nowhere Nothing C (skipTo s) := by
  intro p a q hp _ hm
  cases hm
  obtain ⟨w, hw⟩ := Reads.exists_skipTo hp s
  exact ⟨w, [], hw, List.nil_sublist _, rfl, fun _ _ hb => hb.elim⟩

/-- A token that is missing. -/
theorem missed (e : Expected) (s : TokenSet) {a : α} (hP : P a []) :
    Gathers S E P C (do Parser.unexpected e; Parser.skipTo s; return a) :=
  (unexpected e).skip fun _ => (skipTo s).skip fun _ => .pure hP fun _ => False.elim

/-- Consumes a symbol that becomes no node. -/
theorem pass {t : Token} (ht : t.terminalKind? = none) (hne : t ≠ .endOfFile) {m : Parser α}
    (hm : ∀ p, ∃ a, m.exec p = (.ok a, p.advance)) :
    Gathers (· = t) E Nothing (fun _ b => b = (t == .kwEnd)) m := by
  rintro p a q hp rfl hx
  obtain ⟨y, hy⟩ := hm p
  rw [hy] at hx
  cases hx
  have hentry : p.lookahead.entry? = none := by rw [Symbol.entry?, ht]; rfl
  refine ⟨_, [], .advance hp hne, List.nil_sublist _, rfl, fun _ b _ => ⟨?_, rfl⟩⟩
  cases b <;> simp [notBehindEnd, entries, hentry]

/-- Consumes a word or a sign inside a construct. -/
theorem inner {t : Token} (ht : t.IsInner) {m : Parser α}
    (hm : ∀ p, ∃ a, m.exec p = (.ok a, p.advance)) :
    Gathers (· = t) E Nothing (fun _ => Fresh) m := by
  refine (pass ht.1 ht.2.1 hm).behind fun _ b hb => ?_
  rw [hb]
  exact beq_eq_false_iff_ne.2 ht.2.2

theorem advance {t : Token} (ht : t.IsInner) :
    Gathers (· = t) E Nothing (fun _ => Fresh) advance := inner ht fun _ => ⟨_, rfl⟩

theorem next {t : Token} (ht : t.IsInner) :
    Gathers (· = t) E Nothing (fun _ => Fresh) next := inner ht fun _ => ⟨_, rfl⟩

/-- A symbol that becomes a node. -/
theorem leaf {k : Kind} (hS : ∀ t, S t → t.terminalKind? = some k) :
    Gathers S Fresh Given (fun _ => Fresh) (leaf k) := by
  intro p a q hp ht hm
  cases hm
  have hk := hS _ ht
  obtain ⟨hfilled, hne, hend⟩ := Token.ne_of_terminalKind? hk
  have hentry : p.lookahead.entry? = some (k, p.lookahead) := by rw [Symbol.entry?, hk]; rfl
  refine ⟨[p.lookahead], [(k, p.lookahead)], .advance hp hne, ?_, .leaf hfilled _, ?_⟩
  · simp [entries, hentry]
  · rintro - b rfl
    exact ⟨by simp [notBehindEnd, entries, hentry], by simpa [Fresh, behindEnd] using hend⟩

/-! ### Matching -/

theorem accept {t : Token} (ht : t.IsInner) (s : TokenSet) :
    Gathers S E Nothing (fun _ => Fresh) (accept t s) :=
  .ifAt ((advance ht).skip fun _ => .pure rfl fun _ => id) (missed _ s rfl)

theorem expect {t : Token} (ht : t.IsInner) (s : TokenSet) :
    Gathers S E Nothing (fun _ => Fresh) (expect t s) := by
  rw [expect_eq]
  exact (accept ht s).skip fun _ => .pure rfl fun _ => id

/-- Behind the word that ends a construct. -/
theorem expectEnd (s : TokenSet) :
    Gathers S E Nothing (fun _ => Ended) (Parser.expect .kwEnd s) := by
  have hend : Gathers (· = .kwEnd) E Nothing (fun _ => Ended) Parser.advance :=
    pass rfl (by decide) fun _ => ⟨_, rfl⟩
  rw [expect_eq]
  refine skip (C := fun _ => Ended) (.ifAt ?_ (missed _ s rfl)) fun _ => .pure rfl fun _ => id
  exact hend.skip fun _ => .pure rfl fun _ => id

/-- Where none of the expected tokens comes next. -/
theorem expectAny {s : TokenSet} (hS : ∀ t, S t → t ∉ s) (r : TokenSet) {C : Unit → Bool → Prop} :
    Gathers S E Nothing C (expectAny s r) := by
  intro p a q hp ht hm
  rw [Parser.expectAny, exec_ifAtAny,
    if_neg (show ¬s.contains p.lookahead.token = true from hS _ ht)] at hm
  exact (unexpected _).skip (fun _ => skipTo r) p a q hp ht hm

theorem terminalKind?_of_mem_identStart (t : Token) (h : t ∈ identStart) :
    t.terminalKind? = some .ident := by
  revert h
  cases t <;> decide

theorem ident (r : TokenSet) : Gathers S Fresh Given (fun _ => Fresh) (ident r) :=
  .ifAtAny (leaf terminalKind?_of_mem_identStart) (missed _ r .empty)

/-- The identifier that closes something stands behind `END` and becomes no node. -/
theorem closing (opening : Option Symbol) (r : TokenSet) :
    Gathers S Ended Nothing (fun _ => Fresh) (closing opening r) := by
  have hlooks : Looks (noteClosing opening) := by
    intro p
    rw [exec_noteClosing]
    cases closingFault? opening p.lookahead with
    | none => exact ⟨(), .inl rfl⟩
    | some d => exact ⟨(), .inr ⟨d, rfl⟩⟩
  rw [closing_eq]
  refine .ifAtAny (look_bind hlooks fun _ => ?_) ((unexpected _).skip fun _ => skipTo r)
  intro p a q hp ht hm
  cases hm
  obtain ⟨-, hne, hend⟩ := Token.ne_of_terminalKind? (terminalKind?_of_mem_identStart _ ht)
  refine ⟨_, [], .advance hp hne, List.nil_sublist _, rfl, ?_⟩
  rintro - b rfl
  exact ⟨rfl, by simpa [Fresh, behindEnd] using hend⟩

/-! ### Repetition -/

/-- A repetition, given what the values gathered so far have to do with its answer. -/
theorem loop {I : α → List Entry → Prop} {M D : α → Bool → Prop} {round : α → Parser (Round α)}
    (hr : ∀ a u, I a u → Gathers (fun _ => True) (M a) (fun r v => r.Holds fun b => I b (u ++ v))
      (Round.Leaves M D) (round a)) {a : α} {u : List Entry} (ha : I a u) :
    Gathers S (M a) (fun b v => I b (u ++ v)) D (loop round a) := by
  have hall (bound : List Item) (a : α) (u : List Entry) (ha : I a u) :
      Gathers (fun _ => True) (M a) (fun b v => I b (u ++ v)) D (repeatOn round bound a) := by
    induction bound generalizing a u with
    | nil =>
      rw [repeatOn]
      refine (hr a u ha).bind fun r v hv => ?_
      cases r with
      | more b => exact .stop
      | done b => exact .pure (by rw [List.append_nil]; exact hv) fun _ => id
    | cons i bound ih =>
      rw [repeatOn]
      refine (hr a u ha).bind fun r v hv => ?_
      cases r with
      | more b => exact (ih b (u ++ v) hv).imp fun c w hc => by rwa [List.append_assoc] at hc
      | done b => exact .pure (by rw [List.append_nil]; exact hv) fun _ => id
  intro p b q hp _ hm
  exact hall p.ahead a u ha p b q hp trivial hm

/-- A row of trees that was gathered with the last one first. -/
abbrev Found (found : List Node) (u : List Entry) : Prop := Carry found.reverse u

theorem Found.cons {found : List Node} {t : Node} {u v : List Entry} (h : Found found u)
    (ht : Given t v) : Found (t :: found) (u ++ v) := by
  rw [Found, List.reverse_cons]
  exact h.append ht

/-- A repetition that gathers a row of trees. -/
theorem row {M : List Node → Bool → Prop} {D : Bool → Prop}
    {round : List Node → Parser (Round (List Node))}
    (hr : ∀ found u, Found found u → Gathers (fun _ => True) (M found)
      (fun r v => r.Holds fun found => Found found (u ++ v)) (Round.Leaves M fun _ => D)
      (round found)) :
    Gathers S (M []) Carry (fun _ => D) (List.reverse <$> Parser.loop round []) :=
  .map (loop (I := Found) hr (a := []) (u := []) Carry.nil)

theorem separated {separator : Token} (hsep : separator.IsInner) {D : Bool → Prop}
    {item : Parser Node}
    (hi : Gathers (fun _ => True) Fresh Given (fun _ => D) item) :
    Gathers S Fresh Carry (fun _ => D) (Parser.separated separator item) := by
  rw [separated_eq]
  refine row (M := fun _ => Fresh) fun found u hfound => hi.bind fun t v ht => ?_
  have hmore : Found (t :: found) (u ++ (v ++ [])) := by
    rw [List.append_nil]
    exact hfound.cons ht
  exact .ifAt ((advance hsep).skip fun _ => .pure hmore fun _ => id) (.pure hmore fun _ => id)

theorem whileAtAny {s : TokenSet} {item : Parser Node}
    (hi : Gathers (· ∈ s) E Given (fun _ => E) item) :
    Gathers S E Carry (fun _ => E) (Parser.whileAtAny s item) := by
  rw [whileAtAny_eq]
  refine row (M := fun _ => E) fun found u hfound => ?_
  refine .ifAtAny (hi.bind fun t v ht => ?_) ?_
  · refine .pure (show Found (t :: found) (u ++ (v ++ [])) from ?_) fun _ => id
    rw [List.append_nil]
    exact hfound.cons ht
  · refine .pure (show Found found (u ++ []) from ?_) fun _ => id
    rwa [List.append_nil]

end Gathers

end Parser

end Modula
