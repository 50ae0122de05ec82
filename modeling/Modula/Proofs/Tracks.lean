import Modula.Proofs.Consumption
import Modula.Proofs.Stream
import Modula.Proofs.Viable

/-!
# Rules that track the grammar

A rule tracks an expression of the grammar if it reads what the expression derives and reports a
fault exactly at a dead end. What counts as a fault depends on the dialect: the reports of missing
symbols in the tolerant one, and all reports of the grammar in the strict one. Behind the first
fault nothing is said of the rule but that it takes no report back.

The constructs that a rule may call are limited in number, and a rule is known to track the grammar
only where no more symbols are left than levels may be opened.
-/

namespace Modula

open Modula.Parser Modula.Grammar

/-! ## Faults -/

/-- A report under the code counts as a fault. -/
def Dialect.counts (d : Dialect) (c : Code) : Bool :=
  if d.isTolerant then c = .unexpectedSymbol else c.phase = .syntactic

/-- In the tolerant dialect nothing counts but that a symbol is missing. -/
theorem Dialect.counts_eq_false {d : Dialect} {c : Code} (hd : d.isTolerant = true)
    (hc : c ≠ .unexpectedSymbol) : d.counts c = false := by
  rw [counts, hd, if_pos rfl]
  exact decide_eq_false hc

/-- In the strict dialect all reports of the grammar count. -/
theorem Dialect.counts_eq_true {d : Dialect} {c : Code} (hd : d.isTolerant = false)
    (hc : c.phase = .syntactic) : d.counts c = true := by
  rw [counts, hd, if_neg Bool.false_ne_true]
  exact decide_eq_true hc

namespace Progress

variable {d : Dialect} {p q : Progress}

/-- The faults so far. -/
def faults (p : Progress) (d : Dialect) : List Diagnostic :=
  p.queue.toList.filter (d.counts ·.code)

/-- The progress can be read on from: the end of the source comes last, what is still to come into
view has lexical faults only, and in the strict dialect no symbol is malformed. -/
structure Ready (d : Dialect) (p : Progress) : Prop where
  closed : p.Closed
  lexical : ∀ i ∈ p.ahead, OnlyLexical i.reports
  wellFormed : d.isTolerant = false → ∀ s ∈ p.rest, s.token.isMalformed = false

theorem faults_report (p : Progress) (e : Diagnostic) :
    (p.report e).faults d = p.faults d ++ if d.counts e.code then [e] else [] := by
  rw [faults, faults, report, Queue.toList_push, List.filter_append]
  cases h : d.counts e.code <;> simp [h]

theorem faults_report_of_counts_eq_false {e : Diagnostic} (h : d.counts e.code = false) :
    (p.report e).faults d = p.faults d := by
  rw [faults_report, h, if_neg Bool.false_ne_true, List.append_nil]

theorem faults_grow_advance (p : Progress) : p.faults d <+: p.advance.faults d :=
  p.reports_grow_advance.filter _

theorem counts_eq_false_of_lexical {e : Diagnostic} (h : e.phase = .lexical) :
    d.counts e.code = false := by
  unfold Diagnostic.phase at h
  unfold Dialect.counts
  split
  · revert h
    cases e.code <;> decide
  · rw [h]
    rfl

/-- Consuming a symbol brings no fault with it. -/
theorem Ready.faults_advance (h : p.Ready d) : p.advance.faults d = p.faults d := by
  have hlex := h.lexical
  unfold advance
  split
  · rfl
  · next i ahead hp =>
    rw [hp] at hlex
    have hnil : i.reports.filter (d.counts ·.code) = [] := by
      refine List.filter_eq_nil_iff.2 fun e he => ?_
      rw [counts_eq_false_of_lexical (hlex i List.mem_cons_self e he)]
      exact Bool.false_ne_true
    rw [faults, view, Queue.toList_append, List.filter_append, hnil, List.append_nil]
    rfl

theorem Ready.report (h : p.Ready d) (e : Diagnostic) : (p.report e).Ready d :=
  ⟨h.closed, h.lexical, h.wellFormed⟩

theorem Ready.advance (h : p.Ready d) : p.advance.Ready d := by
  refine ⟨h.closed.advance, fun i hi => ?_, fun hd s hs => ?_⟩
  · rw [ahead_advance] at hi
    exact h.lexical i (List.mem_of_mem_tail hi)
  · by_cases ht : p.lookahead.token = .endOfFile
    · have hadv : p.advance = p := by
        rw [Progress.advance, h.closed.ahead_eq_nil_iff.2 ht]
      rw [hadv] at hs
      exact h.wellFormed hd s hs
    · refine h.wellFormed hd s ?_
      rw [h.closed.rest_eq_cons ht]
      exact List.mem_cons_of_mem _ hs

end Progress

namespace Parser

variable {α β : Type} {d : Dialect} {n : Nat} {S : Token → Prop} {F G : TokenSet} {a b : Ebnf}

/-- The rule takes no fault back. -/
def Grows (d : Dialect) (m : Parser α) : Prop := ∀ p, p.faults d <+: (m.exec p).2.faults d

theorem Composed.grows {k : Nat} {m : Parser α} (h : Composed k m) : Grows d m :=
  fun p => (h.reaches p).reports_grow.filter _

theorem Grows.bind {m : Parser α} {k : α → Parser β} (hm : Grows d m) (hk : ∀ x, Grows d (k x)) :
    Grows d (m >>= k) := by
  intro p
  have hp := hm p
  rw [exec_bind]
  rcases hx : m.exec p with ⟨f | x, q⟩
  · rw [hx] at hp
    exact hp
  · rw [hx] at hp
    exact hp.trans (hk x q)

/-! ## What can come out -/

/-- What can come out where the symbols from `p` on are read for an expression of the grammar. -/
inductive Outcome (d : Dialect) (a : Ebnf) (F : TokenSet) (p : Progress) :
    Except Stop α × Progress → Prop where
  /-- The expression was read, and nothing else could have been. -/
  | exact (x : α) (q : Progress) (u : List Symbol) (hrest : p.rest = u ++ q.rest)
    (hready : q.Ready d) (hfaults : q.faults d = p.faults d)
    (h : Ebnf.Exact d a F u q.lookahead) : Outcome d a F p (.ok x, q)
  /-- There was a dead end, which is where the first fault was reported. -/
  | dead (r : Except Stop α) (q : Progress) (u : List Symbol) (s : Symbol) (v : List Symbol)
    (e : Diagnostic) (later : List Diagnostic) (hrest : p.rest = u ++ s :: v)
    (hfaults : q.faults d = p.faults d ++ e :: later)
    (hplace : d.isTolerant = true → e.line = s.line ∧ e.column = s.column)
    (h : Ebnf.DeadEnd d a F u s) : Outcome d a F p (r, q)

/-- The rule reads what the expression derives, where the next token is one of `S` and what comes
behind starts with a token of `F`. -/
structure Tracks (d : Dialect) (n : Nat) (S : Token → Prop) (F : TokenSet) (a : Ebnf)
    (m : Parser α) : Prop where
  grows : Grows d m
  outcome : ∀ p, p.Ready d → p.rest.length ≤ n → S p.lookahead.token → Outcome d a F p (m.exec p)

/-- Wherever a rule starts. -/
def Anywhere (_ : Token) : Prop := True

instance : DecidablePred Anywhere := fun _ => .isTrue trivial

namespace Outcome

variable {p : Progress} {x : Except Stop α × Progress}

theorem mono (h : Outcome d a G p x) (hFG : F.isSubsetOf G = true) : Outcome d a F p x := by
  cases h with
  | exact x q u hrest hready hfaults h => exact .exact x q u hrest hready hfaults (h.mono hFG)
  | dead r q u s v e later hrest hfaults hplace h =>
    exact .dead r q u s v e later hrest hfaults hplace (h.mono hFG)

theorem congr (h : Outcome d a F p x) (hab : Ebnf.Same d a b) : Outcome d b F p x := by
  cases h with
  | exact x q u hrest hready hfaults h => exact .exact x q u hrest hready hfaults (h.congr hab)
  | dead r q u s v e later hrest hfaults hplace h =>
    exact .dead r q u s v e later hrest hfaults hplace (h.congr hab)

theorem leads_of_eq {s t : Symbol} {w v z : List Symbol} (h : s :: w = v ++ t :: z) :
    Ebnf.Leads s v t := by
  cases v with
  | nil =>
    obtain ⟨rfl, -⟩ := List.cons.inj h
    exact ⟨[], rfl⟩
  | cons r v =>
    obtain ⟨rfl, -⟩ := List.cons.inj h
    exact ⟨v ++ [t], rfl⟩

/-- Reading one thing and then another. -/
theorem seq {k : α → Parser β} (hx : Outcome d a (b.firstWith F) p x)
    (hk : ∀ y q u, x = (.ok y, q) → p.rest = u ++ q.rest → Derives d a u → q.Ready d →
      Outcome d b F q ((k y).exec q))
    (hgrows : ∀ y, Grows d (k y)) : Outcome d (.seq a b) F p (proceed k x) := by
  cases hx with
  | exact y q u hrest hready hfaults h =>
    rw [proceed_ok]
    have hb := hk y q u rfl hrest h.derives hready
    rcases hz : (k y).exec q with ⟨z, r⟩
    rw [hz] at hb
    cases hb with
    | exact z r v hrest' hready' hfaults' h' =>
      refine .exact z r (u ++ v) ?_ hready' (hfaults'.trans hfaults) (h.seq h' ?_)
      · rw [hrest, hrest', List.append_assoc]
      · exact leads_of_eq (z := r.ahead.map Item.symbol) hrest'
    | dead z r v t w e later hrest' hfaults' hplace h' =>
      refine .dead z r (u ++ v) t w e later ?_ ?_ hplace (.seq_right h h' ?_)
      · rw [hrest, hrest', List.append_assoc]
      · rw [hfaults', hfaults]
      · exact leads_of_eq hrest'
  | dead r q u s v e later hrest hfaults hplace h =>
    have hmore : ∃ more, (proceed k (r, q)).2.faults d = q.faults d ++ more := by
      rcases r with f | y
      · exact ⟨[], (List.append_nil _).symm⟩
      · obtain ⟨more, hmore⟩ := hgrows y q
        exact ⟨more, hmore.symm⟩
    obtain ⟨more, hmore⟩ := hmore
    refine .dead _ _ u s v e (later ++ more) hrest (hmore.trans ?_) hplace h.seq_left
    rw [hfaults, List.append_assoc, List.cons_append]

theorem left (h : Outcome d a F p x) (hF : p.lookahead.token ∉ b.firstWith F) :
    Outcome d (.either a b) F p x := by
  cases h with
  | exact x q u hrest hready hfaults h =>
    exact .exact x q u hrest hready hfaults (h.left (leads_of_eq hrest) hF)
  | dead r q u s v e later hrest hfaults hplace h =>
    exact .dead r q u s v e later hrest hfaults hplace (h.left (leads_of_eq hrest) hF)

theorem right (h : Outcome d b F p x) (hF : p.lookahead.token ∉ a.firstWith F) :
    Outcome d (.either a b) F p x := by
  cases h with
  | exact x q u hrest hready hfaults h =>
    exact .exact x q u hrest hready hfaults (h.right (leads_of_eq hrest) hF)
  | dead r q u s v e later hrest hfaults hplace h =>
    exact .dead r q u s v e later hrest hfaults hplace (h.right (leads_of_eq hrest) hF)

/-- Where a report does not count, it makes no difference. -/
theorem of_report {e : Diagnostic} (h : Outcome d a F (p.report e) x)
    (he : d.counts e.code = false) : Outcome d a F p x := by
  have hreport := Progress.faults_report_of_counts_eq_false (p := p) he
  cases h with
  | exact x q u hrest hready hfaults h =>
    exact .exact x q u hrest hready (hfaults.trans hreport) h
  | dead r q u s v e later hrest hfaults hplace h =>
    exact .dead r q u s v e later hrest (hreport ▸ hfaults) hplace h

/-- Reading an identifier and what it is closed by later. -/
theorem closed_seq {c : Ebnf} {spelled : Bool} (hp : p.Ready d)
    (hs : d.Reads identifiers p.lookahead.token) (hne : p.lookahead.token ≠ .endOfFile)
    (h : Outcome d (.seq a (.seq (Ebnf.closer spelled p.lookahead) c)) F p.advance x) :
    Outcome d (.seq (.closed spelled a) c) F p x := by
  have hrest := hp.closed.rest_eq_cons hne
  cases h with
  | exact x q u hu hready hfaults h =>
    refine .exact x q (p.lookahead :: u) ?_ hready (hfaults.trans hp.faults_advance)
      (.closed_seq hs h)
    rw [hrest, hu, List.cons_append]
  | dead r q u s v e later hu hfaults hplace h =>
    refine .dead r q (p.lookahead :: u) s v e later ?_ ?_ hplace (.closed_seq hs h)
    · rw [hrest, hu, List.cons_append]
    · rw [hfaults, hp.faults_advance]

end Outcome

/-! ## What can be read -/

/-- The next token is read as one of those listed. A malformed one is not, but in the strict dialect
there are none. -/
def Readable (d : Dialect) (ts : List Token) (t : Token) : Prop :=
  t ≠ .endOfFile ∧ (d.Reads ts t ∨ (d.isTolerant = false ∧ t.isMalformed = true))

theorem Readable.reads {ts : List Token} {p : Progress} (hp : p.Ready d)
    (h : Readable d ts p.lookahead.token) : d.Reads ts p.lookahead.token := by
  rcases h.2 with h | ⟨hd, hm⟩
  · exact h
  · rw [hp.wellFormed hd p.lookahead List.mem_cons_self] at hm
    cases hm

theorem readable_self {t : Token} {ts : List Token} (h : t ∈ ts) (ht : t ≠ .endOfFile) :
    Readable d ts t := ⟨ht, .inl (.inl h)⟩

theorem readable_of_mem_identStart {t : Token} (h : t ∈ identStart) :
    Readable d identifiers t := by
  unfold Readable Dialect.Reads
  revert h
  cases d.isTolerant <;> cases t <;> decide

/-- The identifier that closes what another one opened. -/
theorem Outcome.closer {p : Progress} {s : Symbol} (hp : p.Ready d)
    (hread : Readable d identifiers p.lookahead.token)
    (hsame : d.isTolerant = false → s.text = p.lookahead.text) :
    Outcome d (Ebnf.closer (!d.isTolerant) s) F p (.ok (), p.advance) := by
  refine .exact () p.advance [p.lookahead] (hp.closed.rest_eq_cons hread.1) hp.advance
    hp.faults_advance (.ident (Readable.reads hp hread) ?_ _)
  intro text htext
  cases hd : d.isTolerant with
  | true =>
    rw [hd] at htext
    cases htext
  | false =>
    rw [hd] at htext
    cases htext
    exact (hsame hd).symm

/-- In the strict dialect it closes nothing if it is spelled differently. -/
theorem Outcome.closer_otherwise {p : Progress} {s : Symbol} (hp : p.Ready d) {e : Diagnostic}
    (hd : d.isTolerant = false) (hne : s.text ≠ p.lookahead.text) (he : e.code.phase = .syntactic) :
    Outcome d (Ebnf.closer (!d.isTolerant) s) F p (.ok (), (p.report e).advance) := by
  have hrest : p.rest = [] ++ p.lookahead :: p.ahead.map Item.symbol := rfl
  rw [hd]
  refine .dead (.ok ()) _ [] p.lookahead _ e [] hrest ?_ (fun ht => ?_)
    (.ident_of_text_ne hne.symm)
  · rw [(hp.report e).faults_advance, Progress.faults_report, Dialect.counts_eq_true hd he]
    rfl
  · rw [hd] at ht
    cases ht

/-! ## Putting rules together -/

namespace Tracks

theorem mono {m : Parser α} {k : Nat} {T : Token → Prop} (h : Tracks d n S G a m)
    (hFG : F.isSubsetOf G = true) (hkn : k ≤ n) (hTS : ∀ t, T t → S t) : Tracks d k T F a m :=
  ⟨h.grows, fun p hp hl ht => (h.outcome p hp (Nat.le_trans hl hkn) (hTS _ ht)).mono hFG⟩

/-- Fewer tokens behind. -/
theorem before {m : Parser α} (h : Tracks d n S G a m) (hFG : F.isSubsetOf G = true) :
    Tracks d n S F a m := h.mono hFG (Nat.le_refl n) fun _ => id

/-- Fewer symbols left. -/
theorem within {m : Parser α} {k : Nat} (h : Tracks d n S F a m) (hkn : k ≤ n) :
    Tracks d k S F a m :=
  ⟨h.grows, fun p hp hl ht => h.outcome p hp (Nat.le_trans hl hkn) ht⟩

/-- Fewer tokens next. -/
theorem whenAt {m : Parser α} {T : Token → Prop} (h : Tracks d n S F a m)
    (hTS : ∀ t, T t → S t) : Tracks d n T F a m :=
  ⟨h.grows, fun p hp hl ht => h.outcome p hp hl (hTS _ ht)⟩

theorem congr {m : Parser α} (h : Tracks d n S F a m) (hab : Ebnf.Same d a b) :
    Tracks d n S F b m :=
  ⟨h.grows, fun p hp hl ht => (h.outcome p hp hl ht).congr hab⟩

theorem rule {m : Parser α} {x : Nonterminal} (h : Tracks d n S F (production d x) m) :
    Tracks d n S F (.rule x) m := h.congr (Ebnf.same_rule x).symm

theorem seq {m : Parser α} {k : α → Parser β} (hm : Tracks d n S G a m)
    (hG : (b.firstWith F).isSubsetOf G = true) (hk : ∀ x, Tracks d n Anywhere F b (k x)) :
    Tracks d n S F (.seq a b) (m >>= k) := by
  refine ⟨hm.grows.bind fun x => (hk x).grows, fun p hp hl ht => ?_⟩
  rw [exec_bind]
  refine ((hm.outcome p hp hl ht).mono hG).seq ?_ fun x => (hk x).grows
  intro y q u _ hrest _ hq
  refine (hk y).outcome q hq (Nat.le_trans ?_ hl) trivial
  rw [hrest, List.length_append]
  exact Nat.le_add_left _ _

/-- Behind a part that is not empty, there is one symbol less. -/
theorem seq_drop {m : Parser α} {k : α → Parser β} (hm : Tracks d (n + 1) S G a m)
    (hG : (b.firstWith F).isSubsetOf G = true) (ha : a.isNullable = false)
    (hk : ∀ x, Tracks d n Anywhere F b (k x)) :
    Tracks d (n + 1) S F (.seq a b) (m >>= k) := by
  refine ⟨hm.grows.bind fun x => (hk x).grows, fun p hp hl ht => ?_⟩
  rw [exec_bind]
  refine ((hm.outcome p hp hl ht).mono hG).seq ?_ fun x => (hk x).grows
  intro y q u _ hrest hu hq
  refine (hk y).outcome q hq ?_ trivial
  cases u with
  | nil =>
    rw [hu.isNullable] at ha
    cases ha
  | cons s u =>
    rw [hrest, List.length_append, List.length_cons] at hl
    omega

theorem pure (x : α) : Tracks d n S F .empty (pure x) :=
  ⟨fun _ => List.prefix_refl _, fun p hp _ _ => .exact x p [] rfl hp rfl .empty⟩

/-- What is done with the answer of the last part. -/
theorem last {m : Parser α} (h : Tracks d n S F a m) (f : α → β) :
    Tracks d n S F a (m >>= fun x => Pure.pure (f x)) := by
  refine congr (seq h ?_ fun x => pure (f x)) (Ebnf.same_seq_empty a)
  exact TokenBitmap.isSubsetOf_iff.2 fun _ => Ebnf.mem_firstWith_empty.1

/-- What is counted at the end. -/
theorem count {m : Parser α} (h : Tracks d n S F a m) (c : Statistics → Statistics)
    (f : α → β) :
    Tracks d n S F a (m >>= fun x => Parser.count c >>= fun _ => Pure.pure (f x)) := by
  have hc (x : α) : Tracks d n Anywhere F .empty (Parser.count c >>= fun _ => Pure.pure (f x)) :=
    ⟨fun _ => List.prefix_refl _, fun p hp _ _ =>
      .exact (f x) (p.count c) [] rfl ⟨hp.closed, hp.lexical, hp.wellFormed⟩ rfl .empty⟩
  refine congr (seq h ?_ hc) (Ebnf.same_seq_empty a)
  exact TokenBitmap.isSubsetOf_iff.2 fun _ => Ebnf.mem_firstWith_empty.1

theorem map {m : Parser α} (h : Tracks d n S F a m) (f : α → β) :
    Tracks d n S F a (f <$> m) := by
  rw [← bind_pure_comp]
  exact h.last f

/-! ## Choices -/

theorem left {m : Parser α} (h : Tracks d n S F a m) (hS : ∀ t, S t → t ∉ b.firstWith F) :
    Tracks d n S F (.either a b) m :=
  ⟨h.grows, fun p hp hl ht => (h.outcome p hp hl ht).left (hS _ ht)⟩

theorem right {m : Parser α} (h : Tracks d n S F b m) (hS : ∀ t, S t → t ∉ a.firstWith F) :
    Tracks d n S F (.either a b) m :=
  ⟨h.grows, fun p hp hl ht => (h.outcome p hp hl ht).right (hS _ ht)⟩

/-- Nothing of what may be there. -/
theorem absent {x : α} (hS : ∀ t, S t → t ∉ a.firstWith F) :
    Tracks d n S F (.option a) (Pure.pure x) :=
  left ⟨fun _ => List.prefix_refl _, fun p hp _ _ => .exact x p [] rfl hp rfl .empty⟩ hS

/-- What may be there. -/
theorem present {m : Parser α} (h : Tracks d n S F a m) (hS : ∀ t, S t → t ∉ F) :
    Tracks d n S F (.option a) m := by
  exact right h fun t ht hmem => hS t ht (Ebnf.mem_firstWith_empty.1 hmem)

theorem ifAt {t : Token} {yes no : Parser α} (hy : Tracks d n (· = t) F a yes)
    (hn : Tracks d n (fun u => S u ∧ u ≠ t) F a no) : Tracks d n S F a (ifAt t yes no) := by
  refine ⟨fun p => ?_, fun p hp hl ht => ?_⟩
  · rw [exec_ifAt]
    split
    · exact hy.grows p
    · exact hn.grows p
  · rw [exec_ifAt]
    split
    · next h => exact hy.outcome p hp hl h
    · next h => exact hn.outcome p hp hl ⟨ht, h⟩

theorem ifAtAny {s : TokenSet} {yes no : Parser α}
    (hy : Tracks d n (fun u => S u ∧ u ∈ s) F a yes)
    (hn : Tracks d n (fun u => S u ∧ u ∉ s) F a no) : Tracks d n S F a (ifAtAny s yes no) := by
  refine ⟨fun p => ?_, fun p hp hl ht => ?_⟩
  · rw [exec_ifAtAny]
    split
    · exact hy.grows p
    · exact hn.grows p
  · rw [exec_ifAtAny]
    split
    · next h => exact hy.outcome p hp hl ⟨ht, h⟩
    · next h => exact hn.outcome p hp hl ⟨ht, h⟩

/-- What is done next depends on the next token. -/
theorem token {k : Token → Parser α} (h : ∀ t, Tracks d n (· = t) F a (k t)) :
    Tracks d n S F a (Parser.token >>= k) := by
  refine ⟨fun p => ?_, fun p hp hl _ => ?_⟩
  · rw [exec_bind, exec_token, proceed_ok]
    exact (h _).grows p
  · rw [exec_bind, exec_token, proceed_ok]
    exact (h _).outcome p hp hl rfl

/-- One of several things and then something else, where none of the others can start so. -/
theorem anyOfThen {m : Parser α} {c : Ebnf} {bs : List Ebnf} (i : Nat)
    (hb : (a :: bs)[i]? = some b) (h : Tracks d n S F (.seq b c) m)
    (hS : ∀ e ∈ (a :: bs).eraseIdx i, ∀ t, S t → t ∉ e.firstWith (c.firstWith F)) :
    Tracks d n S F (.seq (.anyOf a bs) c) m := by
  induction bs generalizing a i with
  | nil =>
    cases i with
    | zero => cases hb; exact h
    | succ i => cases hb
  | cons e bs ih =>
    refine congr ?_ (Ebnf.same_either_seq a (.anyOf e bs) c).symm
    cases i with
    | zero =>
      cases hb
      refine h.left fun t ht hmem => ?_
      obtain ⟨e, he, hmem⟩ := Ebnf.mem_firstWith_anyOf.1 (Ebnf.mem_firstWith_seq.1 hmem)
      exact hS e he t ht hmem
    | succ i =>
      obtain ⟨ha, hlater⟩ := List.forall_mem_cons.1 hS
      exact (ih i hb hlater).right fun t ht hmem => ha t ht (Ebnf.mem_firstWith_seq.1 hmem)

/-- One of several things. -/
theorem anyOf {m : Parser α} {bs : List Ebnf} (i : Nat) (hb : (a :: bs)[i]? = some b)
    (h : Tracks d n S F b m)
    (hS : ∀ c ∈ (a :: bs).eraseIdx i, ∀ t, S t → t ∉ c.firstWith F) :
    Tracks d n S F (.anyOf a bs) m := by
  refine congr (anyOfThen i hb (h.congr (Ebnf.same_seq_empty b).symm) ?_)
    (Ebnf.same_seq_empty (.anyOf a bs))
  intro e he t ht hmem
  refine hS e he t ht ?_
  rw [Ebnf.mem_firstWith] at hmem ⊢
  simpa using hmem

/-! ## Faults -/

/-- A report that counts, at a symbol that cannot be right. -/
theorem blame {m : Parser α} {k : α → Parser β}
    (hm : ∀ p, ∃ y e, m.exec p = (.ok y, p.report e) ∧ d.counts e.code = true ∧
      (d.isTolerant = true → e.line = p.lookahead.line ∧ e.column = p.lookahead.column))
    (hS : ∀ t, S t → t ∉ a.firstWith F) (hk : ∀ y, Grows d (k y)) :
    Tracks d n S F a (m >>= k) := by
  have hgrows : Grows d m := by
    intro p
    obtain ⟨y, e, he, -⟩ := hm p
    rw [he, Progress.faults_report]
    exact List.prefix_append _ _
  refine ⟨hgrows.bind hk, fun p _ _ ht => ?_⟩
  obtain ⟨y, e, he, hcounts, hplace⟩ := hm p
  obtain ⟨more, hmore⟩ := hk y (p.report e)
  rw [Progress.faults_report, hcounts, if_pos rfl] at hmore
  rw [exec_bind, he, proceed_ok]
  refine .dead _ _ [] p.lookahead (p.ahead.map Item.symbol) e more rfl (hmore.symm.trans ?_)
    hplace (.of_not_mem (hS _ ht))
  rw [List.append_assoc, List.singleton_append]

/-- A report that does not count. -/
theorem note {m : Parser α} {k : α → Parser β}
    (hm : ∀ p, ∃ y e, m.exec p = (.ok y, p.report e) ∧ d.counts e.code = false)
    (hk : ∀ y, Tracks d n S F a (k y)) : Tracks d n S F a (m >>= k) := by
  refine ⟨fun p => ?_, fun p hp hl ht => ?_⟩
  · obtain ⟨y, e, hpe, he⟩ := hm p
    rw [exec_bind, hpe, proceed_ok, ← Progress.faults_report_of_counts_eq_false he]
    exact (hk y).grows _
  · obtain ⟨y, e, hpe, he⟩ := hm p
    rw [exec_bind, hpe, proceed_ok]
    exact ((hk y).outcome (p.report e) (hp.report e) hl ht).of_report he

theorem unexpected {e : Expected} {k : Unit → Parser β} (hS : ∀ t, S t → t ∉ a.firstWith F)
    (hk : ∀ y, Grows d (k y)) : Tracks d n S F a (Parser.unexpected e >>= k) := by
  refine blame (fun p => ⟨(), surprise p e, rfl, ?_, fun _ => ⟨rfl, rfl⟩⟩) hS hk
  unfold Dialect.counts
  split <;> rfl

/-- A token of a set is missing, and so is what would have come instead. -/
theorem expectAny {s r : TokenSet} {k : Unit → Parser β}
    (hS : ∀ t, S t → t ∉ s ∧ t ∉ a.firstWith F) (hk : ∀ y, Grows d (k y)) :
    Tracks d n S F a (Parser.expectAny s r >>= k) := by
  unfold Parser.expectAny
  rw [ifAtAny_bind]
  refine ifAtAny ⟨?_, fun p _ _ ht => absurd ht.2 (hS _ ht.1).1⟩ ?_
  · exact (Composed.grows (.advance (n := 0))).bind hk
  · rw [bind_assoc]
    refine unexpected (fun t ht => (hS t ht.1).2) fun _ => ?_
    exact (Composed.grows (.skipTo (n := 0) r)).bind hk

/-! ## Symbols -/

/-- A rule that consumes the next symbol. -/
theorem consume {m : Parser α} {f : Progress → α} (hm : ∀ p, m.exec p = (.ok (f p), p.advance))
    {t : Token} {ts : List Token} (hS : ∀ u, S u → Readable d (t :: ts) u) :
    Tracks d n S F (.oneOf t ts) m := by
  refine ⟨fun p => ?_, fun p hp _ ht => ?_⟩
  · rw [hm]
    exact p.faults_grow_advance
  · rw [hm]
    exact .exact (f p) p.advance [p.lookahead] (hp.closed.rest_eq_cons (hS _ ht).1) hp.advance
      hp.faults_advance (.oneOf (Readable.reads hp (hS _ ht)) _)

theorem consumeIdent {m : Parser α} {f : Progress → α}
    (hm : ∀ p, m.exec p = (.ok (f p), p.advance)) (hS : ∀ u, S u → u ∈ identStart) :
    Tracks d n S F (.ident none) m := by
  refine ⟨fun p => ?_, fun p hp _ ht => ?_⟩
  · rw [hm]
    exact p.faults_grow_advance
  · have hread := readable_of_mem_identStart (d := d) (hS _ ht)
    rw [hm]
    exact .exact (f p) p.advance [p.lookahead] (hp.closed.rest_eq_cons hread.1) hp.advance
      hp.faults_advance (.ident (Readable.reads hp hread) (by simp) _)

/-- A word that is next. -/
theorem word {t : Token} (ht : t ≠ .endOfFile) :
    Tracks d n (· = t) F (.word t) Parser.advance :=
  consume (f := fun _ => ()) exec_advance
    (by rintro u rfl; exact readable_self List.mem_cons_self ht)

/-- What comes behind one of the tokens, with one symbol less. -/
theorem behindOneOf {t : Token} {ts : List Token}
    (hS : ∀ u, S u → u ∈ t :: ts ∧ u ≠ .endOfFile) {k : Unit → Parser β}
    (hk : ∀ u, Tracks d n Anywhere F b (k u)) :
    Tracks d (n + 1) S F (.seq (.oneOf t ts) b) (Parser.advance >>= k) := by
  have hadv : Tracks d (n + 1) S (b.firstWith F) (.oneOf t ts) Parser.advance :=
    consume (f := fun _ => ()) exec_advance fun u hu => readable_self (hS u hu).1 (hS u hu).2
  exact hadv.seq_drop (TokenBitmap.isSubsetOf_iff.2 fun _ => id) rfl hk

/-- What comes behind a word that is next. -/
theorem behindWord {t : Token} (ht : t ≠ .endOfFile) {k : Unit → Parser β}
    (hk : ∀ u, Tracks d n Anywhere F b (k u)) :
    Tracks d (n + 1) (· = t) F (.seq (.word t) b) (Parser.advance >>= k) :=
  behindOneOf (by rintro u rfl; exact ⟨List.mem_cons_self, ht⟩) hk

/-- What is read behind a word only if the word is there. -/
theorem acceptThen {t : Token} (ht : t.IsWord) {r : TokenSet} {k : Bool → Parser β}
    (hk : Tracks d n Anywhere F b (k true)) (hno : Grows d (k false)) :
    Tracks d n Anywhere F (.seq (.word t) b) (Parser.accept t r >>= k) := by
  unfold Parser.accept
  rw [ifAt_bind]
  simp only [bind_assoc, pure_bind]
  refine ifAt ((behindWord ht.1 fun _ => hk).within (Nat.le_succ n)) (unexpected ?_ fun _ => ?_)
  · rintro u ⟨-, hu⟩ hmem
    exact hu ((Ebnf.mem_firstWith_word_seq ht).1 hmem)
  · exact (Composed.grows (.skipTo (n := 0) r)).bind fun _ => hno

/-- A word that has to be there. -/
theorem expect {t : Token} (ht : t.IsWord) (r : TokenSet) :
    Tracks d n Anywhere F (.word t) (expect t r) := by
  have h : Tracks d n Anywhere F (.word t) (Parser.accept t r) := by
    refine ifAt ((word ht.1).last _) (unexpected ?_ fun _ => ?_)
    · rintro u ⟨-, hu⟩ hmem
      exact hu ((Ebnf.mem_firstWith_word ht).1 hmem)
    · exact Composed.grows (k := 0) inferInstance
  rw [expect_eq]
  exact h.last _

/-- An identifier that has to be there. -/
theorem ident (r : TokenSet) : Tracks d n Anywhere F (.ident none) (ident r) := by
  refine ifAtAny (consumeIdent (exec_leaf .ident) fun u hu => hu.2) (unexpected ?_ fun _ => ?_)
  · rintro u ⟨-, hu⟩ hmem
    exact hu hmem
  · exact Composed.grows (k := 0) inferInstance

/-- An identifier that was missing where it had to be. -/
theorem withoutIdent {r : TokenSet} {k : Node → Parser α} (hempty : Grows d (k .empty))
    (hS : ∀ t, S t → t ∉ a.firstWith F) :
    Tracks d n S F a (Parser.unexpected (.token .stdIdent) >>= fun _ =>
      Parser.skipTo r >>= fun _ => k .empty) :=
  unexpected hS fun _ => (Composed.grows (.skipTo (n := 0) r)).bind fun _ => hempty

/-- An identifier and what comes behind it, which may be another thing where it was missing. -/
theorem identBind {r : TokenSet} {k : Node → Parser α} (hempty : Grows d (k .empty))
    (hk : ∀ s, Tracks d n Anywhere F b (k (.leaf .ident s))) :
    Tracks d n Anywhere F (.seq (.ident none) b) (Parser.ident r >>= k) := by
  rw [ident_bind]
  refine ifAtAny ?_ (withoutIdent hempty ?_)
  · exact (consumeIdent exec_next fun u hu => hu.2).seq
      (TokenBitmap.isSubsetOf_iff.2 fun _ => id) hk
  · rintro u ⟨-, hu⟩ hmem
    exact hu (Ebnf.mem_firstWith_ident.1 (Ebnf.mem_firstWith_seq.1 hmem))

/-- An identifier that is repeated at the end of what comes behind it. -/
theorem closedBy {spelled : Bool} {c : Ebnf} {r : TokenSet} {k : Node → Parser α}
    (hempty : Grows d (k .empty))
    (hk : ∀ s, Tracks d n Anywhere F (.seq a (.seq (Ebnf.closer spelled s) c))
      (k (.leaf .ident s))) :
    Tracks d n Anywhere F (.seq (.closed spelled a) c) (Parser.ident r >>= k) := by
  rw [ident_bind]
  refine ifAtAny ⟨fun p => ?_, fun p hp hl ht => ?_⟩ (withoutIdent hempty ?_)
  · rw [exec_bind, exec_next, proceed_ok]
    exact p.faults_grow_advance.trans ((hk _).grows _)
  · have hread := readable_of_mem_identStart (d := d) ht.2
    rw [exec_bind, exec_next, proceed_ok]
    refine .closed_seq hp (Readable.reads hp hread) hread.1 ((hk _).outcome _ hp.advance ?_ trivial)
    rw [hp.closed.rest_eq_cons hread.1, List.length_cons] at hl
    exact Nat.le_of_succ_le hl
  · rintro u ⟨-, hu⟩ hmem
    exact hu (Ebnf.mem_firstWith_closed.1 (Ebnf.mem_firstWith_seq.1 hmem))

/-- The identifier that closes what another one opened. In the strict dialect it has to be spelled
like that one. -/
theorem closing (s : Symbol) (r : TokenSet) :
    Tracks d n Anywhere F (Ebnf.closer (!d.isTolerant) s) (closing (some s) r) := by
  have hfirst {u : Token} (hu : u ∈ (Ebnf.closer (!d.isTolerant) s).firstWith F) :
      u ∈ identStart := hu
  rw [closing_eq]
  refine ifAtAny ⟨Composed.grows (k := 0) inferInstance, fun p hp _ ht => ?_⟩
    (unexpected (fun u hu hmem => hu.2 (hfirst hmem)) fun _ => ?_)
  · have hread := readable_of_mem_identStart (d := d) ht.2
    rw [exec_bind, exec_noteClosing, proceed_ok, exec_advance]
    by_cases hsame : s.text = p.lookahead.text
    · have hfault : closingFault? (some s) p.lookahead = none := if_pos hsame
      rw [hfault]
      exact .closer hp hread fun _ => hsame
    · obtain ⟨e, hfault, hcode⟩ : ∃ e, closingFault? (some s) p.lookahead = some e ∧
          e.code = .closingMismatch := ⟨_, if_neg hsame, rfl⟩
      rw [hfault]
      rcases Bool.eq_false_or_eq_true d.isTolerant with hd | hd
      · refine Outcome.of_report (e := e) (.closer (hp.report e) hread fun h => ?_)
          (Dialect.counts_eq_false hd (by rw [hcode]; decide))
        rw [hd] at h
        cases h
      · exact .closer_otherwise hp hd hsame (by rw [hcode]; rfl)
  · exact Composed.grows (k := 0) inferInstance

/-- `[ word ... ]` -/
theorem optionAt {t : Token} (ht : t.IsWord) (hF : t ∉ F) {k : Unit → Parser α} {x : α}
    (hk : ∀ u, Tracks d n Anywhere F b (k u)) :
    Tracks d (n + 1) Anywhere F (.option (.seq (.word t) b))
      (Parser.ifAt t (Parser.advance >>= k) (Pure.pure x)) := by
  refine ifAt (present (behindWord ht.1 hk) (by rintro u rfl; exact hF)) (absent ?_)
  rintro u ⟨-, hu⟩ hmem
  exact hu ((Ebnf.mem_firstWith_word_seq ht).1 hmem)

/-! ## Parts in a row -/

/-- What may stand behind the first part is what the second one starts with. -/
theorem andThen {m : Parser α} {k : α → Parser β} (hm : Tracks d n S (b.firstWith F) a m)
    (hk : ∀ x, Tracks d n Anywhere F b (k x)) : Tracks d n S F (.seq a b) (m >>= k) :=
  hm.seq (TokenBitmap.isSubsetOf_iff.2 fun _ => id) hk

theorem expectThen {t : Token} {r : TokenSet} {k : Unit → Parser β} (ht : t.IsWord)
    (hk : ∀ x, Tracks d n Anywhere F b (k x)) :
    Tracks d n Anywhere F (.seq (.word t) b) (Parser.expect t r >>= k) :=
  (expect ht r).andThen hk

theorem identThen {r : TokenSet} {k : Node → Parser β}
    (hk : ∀ x, Tracks d n Anywhere F b (k x)) :
    Tracks d n Anywhere F (.seq (.ident none) b) (Parser.ident r >>= k) :=
  (ident r).andThen hk

theorem optionalAt {w : Token} (hw : w.IsWord) (hF : w ∉ F) {m : Parser Node}
    (hm : Tracks d n Anywhere F a m) :
    Tracks d n Anywhere F (.option (.seq (.word w) a)) (optionalAt w m) :=
  (optionAt hw hF fun _ => hm).within (Nat.le_succ n)

theorem optionalThen {w : Token} (hw : w.IsWord) {m : Parser Node} {k : Node → Parser β}
    (hm : Tracks d n Anywhere G a m) (hG : (b.firstWith F).isSubsetOf G = true)
    (hF : w ∉ b.firstWith F) (hk : ∀ x, Tracks d n Anywhere F b (k x)) :
    Tracks d n Anywhere F (.seq (.option (.seq (.word w) a)) b) (Grammar.optionalAt w m >>= k) :=
  (optionalAt hw hF (hm.before hG)).andThen hk

/-! ## Repetition -/

/-- The first round of a repetition. -/
theorem firstRound {round : α → Parser (Round α)} {x : α} {k : Nat}
    (hr : ∀ x, Composed k (round x)) (hc : Consuming round)
    (h : Tracks d n S F a (round x >>= again round)) :
    Tracks d n S F a (Parser.loop round x) := by
  refine ⟨(Composed.loop round x hr hc).grows, fun p hp hl ht => ?_⟩
  rw [exec_loop_unroll hr hc hp.closed]
  exact h.outcome p hp hl ht

/-- A repetition tracks what one round does and then the repetition, which has fewer symbols
left. -/
theorem loop {round : α → Parser (Round α)} {I : α → Prop} {k : Nat}
    (hr : ∀ x, Composed k (round x)) (hc : Consuming round)
    (h : ∀ m, m < n → (∀ x, I x → Tracks d m Anywhere F a (loop round x)) →
      ∀ x, I x → Tracks d (m + 1) Anywhere F a (round x >>= again round)) (x : α) (hx : I x) :
    Tracks d n Anywhere F a (Parser.loop round x) := by
  refine ⟨(Composed.loop round x hr hc).grows, ?_⟩
  induction n generalizing x with
  | zero => intro p _ hl; cases hl
  | succ n ih =>
    intro p hp hl ht
    have hlater (y : α) (hy : I y) : Tracks d n Anywhere F a (Parser.loop round y) :=
      ⟨(Composed.loop round y hr hc).grows, ih (fun m hm => h m (Nat.lt_succ_of_lt hm)) y hy⟩
    rw [exec_loop_unroll hr hc hp.closed]
    exact (h n (Nat.lt_succ_self n) hlater x hx).outcome p hp hl ht

/-- `a { separator a }` -/
theorem separated {separator : Token} (hs : separator.IsWord) (hF : separator ∉ F) {k : Nat}
    {item : Parser α} (hi : Composed k item) (h : Tracks d n Anywhere G a item)
    (hFG : F.isSubsetOf G = true) (hG : separator ∈ G) :
    Tracks d n Anywhere F (.list separator a) (separated separator item) := by
  have hfollow : ((Ebnf.option (.seq (.word separator) (.list separator a))).firstWith F).isSubsetOf
      G = true := by
    refine TokenBitmap.isSubsetOf_iff.2 fun t ht => ?_
    rcases Ebnf.mem_firstWith_option.1 ht with ht | ht
    · rw [(Ebnf.mem_firstWith_word_seq hs).1 ht]
      exact hG
    · exact TokenBitmap.isSubsetOf_iff.1 hFG t ht
  rw [separated_eq]
  refine map (loop (I := fun _ => True) (k := k) (fun _ => inferInstance)
    (consuming_separatedRound hs.1 hi) ?_ [] trivial) _
  intro m hm hlater found _
  refine congr ?_ (Ebnf.same_list separator).symm
  unfold separatedRound
  rw [bind_assoc]
  refine (h.within hm).seq hfollow fun x => ?_
  rw [ifAt_bind, bind_assoc, pure_bind]
  simp only [pure_bind, again]
  exact optionAt hs hF fun _ => hlater _ trivial

/-- `{ a }`, repeated as long as the next token is one that it starts with. -/
theorem whileAtAny {s : TokenSet} (hs : a.first.isSubsetOf s = true)
    (ha : a.isNullable = false) (hF : ∀ t ∈ s, t ∉ F) {k : Nat} {item : Parser α}
    (hi : Composed k item) (hc : Consumes (· ∈ s) item)
    (h : Tracks d n (· ∈ s) G a item) (hFG : F.isSubsetOf G = true)
    (hG : a.first.isSubsetOf G = true) :
    Tracks d n Anywhere F (.many a) (whileAtAny s item) := by
  have hfollow : ((Ebnf.many a).firstWith F).isSubsetOf G = true := by
    refine TokenBitmap.isSubsetOf_iff.2 fun t ht => ?_
    rcases Ebnf.mem_firstWith_many.1 ht with ht | ht
    · exact TokenBitmap.isSubsetOf_iff.1 hG t ht
    · exact TokenBitmap.isSubsetOf_iff.1 hFG t ht
  rw [whileAtAny_eq]
  refine map (loop (I := fun _ => True) (k := k) (fun _ => inferInstance)
    (consuming_whileRound hc) ?_ [] trivial) _
  intro m hm hlater found _
  refine congr ?_ Ebnf.same_many.symm
  unfold whileRound
  rw [ifAtAny_bind, bind_assoc]
  simp only [pure_bind, again]
  refine ifAtAny (present ?_ fun t ht => hF t ht.2) (absent ?_)
  · exact ((h.within hm).whenAt fun t ht => ht.2).seq_drop hfollow ha fun x => hlater _ trivial
  · rintro t ⟨-, ht⟩ hmem
    rw [Ebnf.mem_firstWith_seq, Ebnf.mem_firstWith_of_not_isNullable ha] at hmem
    exact ht (TokenBitmap.isSubsetOf_iff.1 hs t hmem)

end Tracks

end Parser

end Modula
