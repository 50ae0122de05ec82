import Modula.Proofs.ComposedRules
import Modula.Proofs.Stream

/-!
# Reading exactly some symbols

A rule reads exactly some symbols if, wherever these stand in front of a token that stops it, it
consumes them, reports nothing of them, and answers. Most rules end in a repetition, and what is
read of one operand may be the start of a longer one; so it is said more generally that a rule has
read some symbols and goes on as another rule, which has the answer so far.
-/

namespace Modula

open Modula.Parser Modula.Grammar

/-- A symbol without its place. -/
structure Unplaced where
  token : Token
  text : String
deriving DecidableEq, Repr

/-- A token in its own spelling. -/
def Unplaced.ofToken (t : Token) : Unplaced := ⟨t, t.spelling?.getD ""⟩

/-- The token has a spelling of its own, and this is it. -/
def Unplaced.IsSpelled (s : Unplaced) : Prop := s.token.spelling? = some s.text

/-- What the symbol is, wherever it stands. -/
def Symbol.unplaced (s : Symbol) : Unplaced := ⟨s.token, s.text⟩

namespace Progress

/-- The symbols that are still to be read. -/
def coming (p : Progress) : List Unplaced := p.rest.map Symbol.unplaced

theorem lookahead_of_coming {p : Progress} {s : Unplaced} {w : List Unplaced}
    (h : p.coming = s :: w) : p.lookahead.unplaced = s := (List.cons.inj h).1

/-- The symbols were read between the two, and nothing was reported of them. -/
structure Through (p : Progress) (u : List Unplaced) (q : Progress) : Prop where
  closed : q.Closed
  coming : p.coming = u ++ q.coming
  foreseen : q.foreseen = p.foreseen

namespace Through

variable {p q r : Progress} {u v w : List Unplaced} {s : Unplaced}

theorem refl (h : p.Closed) : p.Through [] p := ⟨h, rfl, rfl⟩

theorem trans (h : p.Through u q) (h' : q.Through v r) : p.Through (u ++ v) r :=
  ⟨h'.closed, by rw [h.coming, h'.coming, List.append_assoc], h'.foreseen.trans h.foreseen⟩

theorem advance (h : p.Closed) (hp : p.coming = s :: w) (hs : s.token ≠ .endOfFile) :
    p.Through [s] p.advance := by
  obtain rfl := lookahead_of_coming hp
  exact ⟨h.advance, congrArg _ (h.rest_eq_cons hs), p.foreseen_advance⟩

theorem count (h : p.Closed) (f : Statistics → Statistics) : p.Through [] (p.count f) :=
  ⟨h, rfl, rfl⟩

/-- What comes next. -/
theorem coming_eq (h : p.Through u q) (hp : p.coming = u ++ w) : q.coming = w :=
  List.append_cancel_left (h.coming.symm.trans hp)

end Through

end Progress

/-- The row starts with a token of the set. -/
def StartsIn (S : TokenSet) (u : List Unplaced) : Prop := ∃ s v, u = s :: v ∧ s.token ∈ S

theorem StartsIn.mono {S T : TokenSet} {u : List Unplaced} (h : StartsIn S u)
    (hST : S.isSubsetOf T = true) : StartsIn T u := by
  obtain ⟨s, v, rfl, hs⟩ := h
  exact ⟨s, v, rfl, TokenBitmap.isSubsetOf_iff.1 hST _ hs⟩

theorem StartsIn.append {S : TokenSet} {u : List Unplaced} (h : StartsIn S u)
    (v : List Unplaced) : StartsIn S (u ++ v) := by
  obtain ⟨s, w, rfl, hs⟩ := h
  exact ⟨s, w ++ v, rfl, hs⟩

/-- The symbols, or what stops a rule behind them where there are none, start with such a token. -/
def OpensWith (u : List Unplaced) (stop F : Token → Prop) : Prop :=
  ∀ s w, stop s.token → ∃ t v, u ++ s :: w = t :: v ∧ F t.token

namespace OpensWith

variable {stop F : Token → Prop}

theorem nil (h : ∀ t, stop t → F t) : OpensWith [] stop F := fun s w hs => ⟨s, w, rfl, h _ hs⟩

theorem cons {s : Unplaced} {u : List Unplaced} (h : F s.token) : OpensWith (s :: u) stop F :=
  fun t w _ => ⟨s, u ++ t :: w, rfl, h⟩

theorem any (u : List Unplaced) : OpensWith u stop fun _ => True := by
  cases u with
  | nil => exact nil fun _ _ => trivial
  | cons s u => exact cons trivial

theorem of_startsIn {S : TokenSet} {u : List Unplaced} (h : StartsIn S u) (hS : ∀ t ∈ S, F t) :
    OpensWith u stop F := by
  obtain ⟨s, v, rfl, hs⟩ := h
  exact cons (hS _ hs)

end OpensWith

/-- The node is a leaf with such a symbol. -/
def IsLeaf (kind : Kind) (s : Unplaced) (n : Node) : Prop :=
  ∃ i : Symbol, i.unplaced = s ∧ n = .leaf kind i

namespace Parser

variable {α β γ : Type}

/-- Where the symbols stand in front of a token that stops it, the rule reads them, reports nothing
of them, and goes on as `k` with an answer that has the property. -/
def ReadsOn (m : Parser β) (k : α → Parser β) (P : α → Prop) (u : List Unplaced)
    (stop : Token → Prop) : Prop :=
  ∀ p s w, p.Closed → p.coming = u ++ s :: w → stop s.token →
    ∃ a q, P a ∧ p.Through u q ∧ m.exec p = (k a).exec q

/-- The rule reads exactly the symbols in front of a token that stops it. -/
abbrev Reads (m : Parser α) (P : α → Prop) (u : List Unplaced) (stop : Token → Prop) : Prop :=
  ReadsOn m pure P u stop

namespace ReadsOn

variable {m yes no : Parser β} {k : α → Parser β} {P Q : α → Prop} {u v : List Unplaced}
  {s : Unplaced} {stop stop' : Token → Prop}

theorem mono (h : ReadsOn m k P u stop) (hP : ∀ a, P a → Q a) (hstop : ∀ t, stop' t → stop t) :
    ReadsOn m k Q u stop' := by
  intro p s w hp hcoming hs
  obtain ⟨a, q, ha, hq, hm⟩ := h p s w hp hcoming (hstop _ hs)
  exact ⟨a, q, hP a ha, hq, hm⟩

/-- Nothing is read before going on. -/
theorem here (a : α) (ha : P a) : ReadsOn (k a) k P [] stop :=
  fun p _ _ hp _ _ => ⟨a, p, ha, .refl hp, rfl⟩

/-- Nothing is read for an answer. -/
theorem answer (a : α) (ha : P a) : Reads (pure a) P [] stop := here a ha

/-- What goes on reads more. -/
theorem trans {l : γ → Parser β} {R : γ → Prop} (h : ReadsOn m k P u stop)
    (hk : ∀ a, P a → ReadsOn (k a) l R v stop') (hv : OpensWith v stop' stop) :
    ReadsOn m l R (u ++ v) stop' := by
  intro p s w hp hcoming hs
  rw [List.append_assoc] at hcoming
  obtain ⟨t, z, hz, ht⟩ := hv s w hs
  obtain ⟨a, q, ha, hq, hm⟩ := h p t z hp (hz ▸ hcoming) ht
  obtain ⟨c, r, hc, hr, hkr⟩ := hk a ha q s w hq.closed (hq.coming_eq hcoming) hs
  exact ⟨c, r, hc, hq.trans hr, hm.trans hkr⟩

/-- What goes on stops without reading more. -/
theorem stopped {l : γ → Parser β} {R : γ → Prop} (h : ReadsOn m k P u stop)
    (hk : ∀ a, P a → ReadsOn (k a) l R [] stop') (hstop : ∀ t, stop' t → stop t) :
    ReadsOn m l R u stop' := by
  have := h.trans hk (.nil hstop)
  rwa [List.append_nil] at this

/-! ### One rule behind another -/

theorem bind {m : Parser α} {f : α → Parser β} (h : Reads m P u stop) :
    ReadsOn (m >>= f) f P u stop := by
  intro p s w hp hcoming hs
  obtain ⟨a, q, ha, hq, hm⟩ := h p s w hp hcoming hs
  exact ⟨a, q, ha, hq, by rw [exec_bind, hm, exec_pure, proceed_ok]⟩

theorem seq {m : Parser γ} {f : γ → Parser β} {R : γ → Prop} (h : Reads m R u stop)
    (hf : ∀ c, R c → ReadsOn (f c) k P v stop') (hv : OpensWith v stop' stop) :
    ReadsOn (m >>= f) k P (u ++ v) stop' := h.bind.trans hf hv

theorem map {m : Parser γ} {f : γ → β} {R : γ → Prop} {S : β → Prop} (h : Reads m R u stop)
    (hf : ∀ c, R c → S (f c)) : Reads (f <$> m) S u stop := by
  rw [← bind_pure_comp]
  exact h.bind.stopped (fun c hc => .answer (f c) (hf c hc)) fun _ => id

/-! ### Operations -/

theorem consume {m : Parser α} {f : Progress → α} (hm : ∀ p, m.exec p = (.ok (f p), p.advance))
    (hs : s.token ≠ .endOfFile) (hf : ∀ p, p.lookahead.unplaced = s → P (f p)) :
    Reads m P [s] stop := by
  intro p t w hp hcoming _
  have hlookahead := Progress.lookahead_of_coming hcoming
  exact ⟨f p, p.advance, hf p hlookahead, .advance hp hcoming hs, hm p⟩

/-- A word of the grammar, and what comes behind it. -/
theorem word {f : Unit → Parser β} (hs : s.token ≠ .endOfFile)
    (hf : ReadsOn (f ()) k P u stop) : ReadsOn (advance >>= f) k P (s :: u) stop := by
  have hword : Reads advance (fun _ => True) [s] fun _ => True :=
    consume (fun _ => rfl) hs fun _ _ => trivial
  exact hword.seq (fun _ _ => hf) (.any u)

theorem leaf (kind : Kind) (hs : s.token ≠ .endOfFile) :
    Reads (leaf kind) (IsLeaf kind s) [s] stop :=
  consume (exec_leaf kind) hs fun p hp => ⟨p.lookahead, hp, rfl⟩

theorem count (f : Statistics → Statistics) : Reads (count f) (fun _ => True) [] stop :=
  fun _ _ _ hp _ _ => ⟨(), _, trivial, .count hp f, rfl⟩

theorem token {f : Token → Parser β} {T : Token → Prop} (hu : OpensWith u stop T)
    (hf : ∀ t, T t → ReadsOn (f t) k P u stop) : ReadsOn (token >>= f) k P u stop := by
  intro p s w hp hcoming hs
  obtain ⟨t, z, hz, ht⟩ := hu s w hs
  obtain ⟨a, q, ha, hq, hm⟩ := hf _ ht p s w hp hcoming hs
  refine ⟨a, q, ha, hq, ?_⟩
  have hlookahead := Progress.lookahead_of_coming (hcoming.trans hz)
  rw [exec_bind, exec_token, proceed_ok, show p.lookahead.token = t.token by rw [← hlookahead]; rfl]
  exact hm

/-- The next token is known. -/
theorem at_token {f : Token → Parser β} {t : Token} (hu : OpensWith u stop (· = t))
    (hf : ReadsOn (f t) k P u stop) : ReadsOn (Parser.token >>= f) k P u stop :=
  .token hu fun _ ht => ht ▸ hf

theorem ifAt_yes {t : Token} (hu : OpensWith u stop (· = t)) (h : ReadsOn yes k P u stop) :
    ReadsOn (ifAt t yes no) k P u stop :=
  .token hu fun _ ht => by rwa [if_pos ht]

theorem ifAt_no {t : Token} (hu : OpensWith u stop (· ≠ t)) (h : ReadsOn no k P u stop) :
    ReadsOn (ifAt t yes no) k P u stop :=
  .token hu fun _ ht => by rwa [if_neg ht]

theorem ifAtAny_yes {S : TokenSet} (hu : OpensWith u stop (· ∈ S)) (h : ReadsOn yes k P u stop) :
    ReadsOn (ifAtAny S yes no) k P u stop :=
  .token hu fun _ ht => by rwa [if_pos (show S.contains _ = true from ht)]

theorem ifAtAny_no {S : TokenSet} (hu : OpensWith u stop (· ∉ S)) (h : ReadsOn no k P u stop) :
    ReadsOn (ifAtAny S yes no) k P u stop :=
  .token hu fun _ ht => by rwa [if_neg (show ¬S.contains _ = true from ht)]

theorem accept {t : Token} (hs : s.token = t) (ht : t ≠ .endOfFile) (r : TokenSet) :
    Reads (accept t r) (· = true) [s] stop :=
  .ifAt_yes (.cons hs) (.word (hs ▸ ht) (.answer true rfl))

theorem expect {t : Token} (hs : s.token = t) (ht : t ≠ .endOfFile) (r : TokenSet) :
    Reads (expect t r) (fun _ => True) [s] stop := by
  rw [expect_eq]
  exact (accept hs ht r).bind.stopped (fun _ _ => .answer () trivial) fun _ => id

/-- An expected token, and what comes behind it. -/
theorem expect_seq {t : Token} {f : Unit → Parser β} (hs : s.token = t) (ht : t ≠ .endOfFile)
    (r : TokenSet) (hf : ReadsOn (f ()) k P u stop) :
    ReadsOn (Parser.expect t r >>= f) k P (s :: u) stop := by
  have hword : Reads (Parser.expect t r) (fun _ => True) [s] fun _ => True := expect hs ht r
  exact hword.seq (fun _ _ => hf) (.any u)

theorem ident (hs : s.token ∈ identStart) (r : TokenSet) :
    Reads (ident r) (IsLeaf .ident s) [s] stop := by
  refine .ifAtAny_yes (.cons hs) (.leaf .ident ?_)
  intro h
  exact absurd (h ▸ hs) (by decide)

/-! ### Repetitions -/

variable {round : α → Parser (Round α)} {a : α}

/-- A round behind which there is another. -/
theorem more {n : Nat} (hr : ∀ a, Composed n (round a)) (hc : Consuming round)
    (h : Reads (round a) (fun x => ∃ b, x = .more b ∧ P b) u stop) :
    ReadsOn (loop round a) (loop round) P u stop := by
  intro p s w hp hcoming hs
  obtain ⟨_, q, ⟨b, rfl, hb⟩, hq, hm⟩ := h p s w hp hcoming hs
  refine ⟨b, q, hb, hq, ?_⟩
  rw [exec_loop_unroll hr hc hp, exec_bind, hm, exec_pure, proceed_ok, again]

/-- The last round. -/
theorem done (h : Reads (round a) (fun x => ∃ b, x = .done b ∧ P b) u stop) :
    Reads (loop round a) P u stop := by
  intro p s w hp hcoming hs
  obtain ⟨_, q, ⟨b, rfl, hb⟩, hq, hm⟩ := h p s w hp hcoming hs
  refine ⟨b, q, hb, hq, ?_⟩
  rw [exec_loop]
  cases p.ahead <;> rw [repeatOn, exec_bind, hm] <;> rfl

/-- No item of a row is read where none starts. -/
theorem none_of_row {S : TokenSet} {item : Parser α} :
    Reads (whileAtAny S item) (· = []) [] (· ∉ S) := by
  have hloop : Reads (loop (whileRound S item) []) (· = []) [] (· ∉ S) :=
    .done (.ifAtAny_no (.nil fun _ => id) (.answer (Round.done []) ⟨[], rfl, rfl⟩))
  rw [whileAtAny_eq]
  exact hloop.map fun _ h => congrArg List.reverse h

/-- An identifier that closes what another with the same text opened. -/
theorem closing {i : Symbol} (hs : s.token ∈ identStart) (hi : i.text = s.text) (r : TokenSet) :
    Reads (closing (some i) r) (fun _ => True) [s] stop := by
  have hend : s.token ≠ .endOfFile := fun h => absurd (h ▸ hs) (by decide)
  refine .ifAtAny_yes (.cons hs) fun p t w hp hcoming _ => ?_
  obtain rfl := Progress.lookahead_of_coming hcoming
  have hfault : closingFault? (some i) p.lookahead = none := if_pos hi
  refine ⟨(), p.advance, trivial, .advance hp hcoming hend, ?_⟩
  rw [exec_bind, exec_lookahead, proceed_ok, hfault, exec_advance, exec_pure]

end ReadsOn

end Parser

end Modula
