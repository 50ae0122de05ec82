import Mathlib.Data.List.Forall2
import Mathlib.Data.Option.Basic
import Modula.Proofs.Consumption
import Modula.Proofs.TokenClasses

/-!
# Two runs compared

A fact about two runs of the grammar is proved for all rules at once. A likeness says which symbols
and which points of two runs correspond, and what may become of the second run where the first one
fails. Two rules are alike if, read from points that correspond, they come to points that correspond
and answer the same as far as symbols correspond.

Like `Composed`, this is a class whose instances follow the text of a rule. Answers that correspond
come in pairs, so that what is read behind them is compared for one pair at a time.
-/

namespace Modula

open Modula.Parser Modula.Grammar

/-- Options with values that are the same, if they have any, are the same. -/
theorem eq_of_optionRel {α : Type} {R : α → α → Prop} {a b : Option α} (h : Option.Rel R a b)
    (hR : ∀ x y, R x y → x = y) : a = b := by
  cases h with
  | none => rfl
  | some h => rw [hR _ _ h]

/-! ## Trees that correspond -/

namespace Tree

variable {α β : Type}

mutual

/-- Trees of the same shape and kinds, with values that correspond. -/
def Corresponds (V : α → β → Prop) : Tree α → Tree β → Prop
  | node k v cs, node k' v' cs' => k = k' ∧ Option.Rel V v v' ∧ CorrespondAll V cs cs'

/-- Rows of trees that correspond one by one. -/
def CorrespondAll (V : α → β → Prop) : List (Tree α) → List (Tree β) → Prop
  | [], [] => True
  | t :: ts, u :: us => t.Corresponds V u ∧ CorrespondAll V ts us
  | _, _ => False

end

variable {V : α → β → Prop}

theorem correspondAll_iff {ts : List (Tree α)} {us : List (Tree β)} :
    CorrespondAll V ts us ↔ List.Forall₂ (Corresponds V) ts us := by
  induction ts generalizing us with
  | nil => cases us <;> simp [CorrespondAll]
  | cons t ts ih =>
    cases us with
    | nil => simp [CorrespondAll]
    | cons u us => rw [CorrespondAll, ih, List.forall₂_cons]

theorem corresponds_branch {k k' : Kind} {cs : List (Tree α)} {cs' : List (Tree β)} :
    (branch k cs).Corresponds V (branch k' cs') ↔
      k = k' ∧ List.Forall₂ (Corresponds V) cs cs' := by
  rw [branch, branch, Corresponds, correspondAll_iff]
  exact ⟨fun h => ⟨h.1, h.2.2⟩, fun h => ⟨h.1, .none, h.2⟩⟩

theorem corresponds_leaf {k : Kind} {v : α} {v' : β} (h : V v v') :
    (leaf k v).Corresponds V (leaf k v') :=
  ⟨rfl, .some h, trivial⟩

theorem corresponds_empty : (empty : Tree α).Corresponds V empty :=
  corresponds_branch.2 ⟨rfl, .nil⟩

theorem Corresponds.kind_eq {t : Tree α} {u : Tree β} (h : t.Corresponds V u) :
    t.kind = u.kind := by
  cases t
  cases u
  exact h.1

theorem Corresponds.isEmpty_eq {t : Tree α} {u : Tree β} (h : t.Corresponds V u) :
    t.isEmpty = u.isEmpty := by
  rw [isEmpty, isEmpty, h.kind_eq]

mutual

theorem Corresponds.eq {t u : Tree α} (h : t.Corresponds Eq u) : t = u := by
  match t, u, h with
  | node k v cs, node k' v' cs', ⟨hk, hv, hcs⟩ =>
    rw [hk, eq_of_optionRel hv fun _ _ => id, CorrespondAll.eq hcs]

theorem CorrespondAll.eq {ts us : List (Tree α)} (h : CorrespondAll Eq ts us) : ts = us := by
  match ts, us, h with
  | [], [], _ => rfl
  | t :: ts, u :: us, ⟨ht, hts⟩ => rw [Corresponds.eq ht, CorrespondAll.eq hts]

end

end Tree

/-! ## Faults that correspond -/

/-- What was expected is the same, or two names from symbols that correspond. -/
inductive Expected.Corresponds (V : Symbol → Symbol → Prop) : Expected → Expected → Prop where
  | token (t : Token) : Corresponds V (.token t) (.token t)
  | set (s : TokenSet) : Corresponds V (.set s) (.set s)
  | name {s s' : Symbol} (h : V s s') : Corresponds V (.name s.text) (.name s'.text)

namespace Diagnostic

/-- The fault is at the symbol, and if it has a lexeme, this is the text of the symbol. -/
def Concerns (d : Diagnostic) (s : Symbol) : Prop :=
  d.line = s.line ∧ d.column = s.column ∧ ∀ text ∈ d.lexeme, text = s.text

/-- Faults of one sort at symbols that correspond. -/
structure Corresponds (V : Symbol → Symbol → Prop) (d d' : Diagnostic) : Prop where
  code : d.code = d'.code
  severity : d.severity = d'.severity
  char : d.char = d'.char
  place : ∃ s s', V s s' ∧ d.Concerns s ∧ d'.Concerns s' ∧ d.lexeme.isSome = d'.lexeme.isSome
  found : Option.Rel (fun t t' => ∃ s s', V s s' ∧ t = s.token ∧ t' = s'.token) d.found d'.found
  expected : Option.Rel (Expected.Corresponds V) d.expected d'.expected

end Diagnostic

/-- Faults that correspond by being at the same symbols are the same. -/
theorem Diagnostic.Corresponds.eq {d d' : Diagnostic} (h : d.Corresponds Eq d') : d = d' := by
  obtain ⟨hcode, hseverity, hchar, ⟨s, _, rfl, ⟨hl, hc, ht⟩, ⟨hl', hc', ht'⟩, hsome⟩, hfound,
    hexpected⟩ := h
  have hlexeme : d.lexeme = d'.lexeme := by
    cases hd : d.lexeme with
    | none =>
      rw [hd, Option.isSome_none, eq_comm, Option.isSome_eq_false_iff] at hsome
      rw [Option.isNone_iff_eq_none.1 hsome]
    | some text =>
      rw [hd, Option.isSome_some, eq_comm, Option.isSome_iff_exists] at hsome
      obtain ⟨text', hd'⟩ := hsome
      rw [hd', ht text hd, ht' text' hd']
  have hfound := eq_of_optionRel hfound fun _ _ => by
    rintro ⟨s, _, rfl, rfl, rfl⟩
    rfl
  have hexpected := eq_of_optionRel hexpected fun _ _ h => by
    cases h with
    | token | set => rfl
    | name h => rw [h]
  cases d
  rw [Diagnostic.mk.injEq]
  exact ⟨hseverity, hcode, hl.trans hl'.symm, hc.trans hc'.symm, hchar, hfound, hlexeme, hexpected⟩

/-! ## Counts that correspond -/

/-- The counts that the grammar makes are the same. -/
structure Statistics.SameCounts (s t : Statistics) : Prop where
  declarations : s.declarations = t.declarations
  procedures : s.procedures = t.procedures
  statements : s.statements = t.statements
  syntaxWarnings : s.syntaxWarnings = t.syntaxWarnings
  syntaxErrors : s.syntaxErrors = t.syntaxErrors

/-- So many more declarations, procedures and statements are counted. -/
def Statistics.Tallies (f : Statistics → Statistics) : Prop :=
  ∃ m n k, f = fun s =>
    { s with
      declarations := s.declarations + m
      procedures := s.procedures + n
      statements := s.statements + k }

theorem Statistics.Tallies.sameCounts {f : Statistics → Statistics} (hf : Tallies f)
    {s t : Statistics} (h : s.SameCounts t) : (f s).SameCounts (f t) := by
  obtain ⟨m, n, k, rfl⟩ := hf
  exact ⟨congrArg (· + m) h.declarations, congrArg (· + n) h.procedures,
    congrArg (· + k) h.statements, h.syntaxWarnings, h.syntaxErrors⟩

/-! ## Likeness -/

/-- What it means for two runs to be alike. -/
structure Likeness where
  /-- Symbols that correspond. -/
  symbol : Symbol → Symbol → Prop
  /-- Points of two runs that correspond. -/
  progress : Progress → Progress → Prop
  /-- Where the first run has failed, the second one may have come so far, failed or not. -/
  failed : Stop → Progress → Option Stop → Progress → Prop
  /-- The limit on nesting of the second run. -/
  limit : Nat
  normal_eq : ∀ {s s'}, symbol s s' → s.token.normal = s'.token.normal
  text_eq_iff : ∀ {s s' t t'}, symbol s s' → symbol t t' → s.token ∈ identStart →
    t.token ∈ identStart → (s.text = t.text ↔ s'.text = t'.text)
  lookahead : ∀ {p p'}, progress p p' → symbol p.lookahead p'.lookahead
  length_ahead : ∀ {p p'}, progress p p' → p.ahead.length = p'.ahead.length
  advance : ∀ {p p'}, progress p p' → progress p.advance p'.advance
  report : ∀ {p p' d d'}, progress p p' → d.Corresponds symbol d' →
    progress (p.report d) (p'.report d')
  count : ∀ {p p' f}, progress p p' → Statistics.Tallies f →
    progress (p.count f) (p'.count f)
  /-- Both runs may stop for want of an end. -/
  endless : ∀ {q q'}, progress q q' → failed .endless q (some .endless) q'
  /-- What the second run reports later does not matter. -/
  failed_later : ∀ {f q q' f'? r'}, failed f q none q' →
    q'.queue.toList <+: r'.queue.toList → failed f q f'? r'

/-! Where symbols correspond by being the same: -/

theorem Symbol.normal_eq_of_eq {s s' : Symbol} (h : s = s') : s.token.normal = s'.token.normal :=
  congrArg (·.token.normal) h

theorem Symbol.text_eq_iff_of_eq {s s' t t' : Symbol} (hs : s = s') (ht : t = t')
    (_ : s.token ∈ identStart) (_ : t.token ∈ identStart) : s.text = t.text ↔ s'.text = t'.text := by
  rw [hs, ht]

namespace Likeness

variable {L : Likeness}

theorem contains_eq {s : TokenSet} [s.Uniform] {p p' : Progress} (h : L.progress p p') :
    s.contains p.lookahead.token = s.contains p'.lookahead.token :=
  TokenBitmap.Uniform.contains_eq (L.normal_eq (L.lookahead h))

theorem token_eq_iff {t : Token} [IsTrue t.isPlain] {p p' : Progress} (h : L.progress p p') :
    p.lookahead.token = t ↔ p'.lookahead.token = t :=
  Token.eq_iff_of_normal_eq (L.normal_eq (L.lookahead h))

theorem skipTo {s : TokenSet} [s.Uniform] {p p' : Progress} (h : L.progress p p') :
    L.progress (p.skipTo s) (p'.skipTo s) := by
  have hstop {p p' : Progress} (h : L.progress p p') :
      (p.lookahead.token = .endOfFile ∨ s.contains p.lookahead.token = true ∨ p.ahead = []) ↔
        (p'.lookahead.token = .endOfFile ∨ s.contains p'.lookahead.token = true ∨
          p'.ahead = []) := by
    rw [token_eq_iff h, contains_eq h, ← List.length_eq_zero_iff, L.length_ahead h,
      List.length_eq_zero_iff]
  -- Both skips stop together, and otherwise consume one symbol each.
  induction hn : p.ahead.length using Nat.strongRecOn generalizing p p' with
  | ind n ih =>
    by_cases hp : p.lookahead.token = .endOfFile ∨ s.contains p.lookahead.token = true ∨
        p.ahead = []
    · rw [Progress.skipTo, if_pos hp, Progress.skipTo, if_pos ((hstop h).1 hp)]
      exact h
    · rw [Progress.skipTo_of_go hp, Progress.skipTo_of_go fun hp' => hp ((hstop h).2 hp')]
      refine ih _ ?_ (L.advance h) rfl
      have hpos : 0 < p.ahead.length := List.length_pos_iff.2 fun hnil => hp (.inr (.inr hnil))
      rw [Progress.ahead_advance, List.length_tail]
      omega

end Likeness

/-! ## Answers that correspond -/

/-- Answers of this sort can be compared. -/
class Comparable (α : Type) where
  rel : Likeness → α → α → Prop

/-- The answers correspond. -/
class Same (L : Likeness) {α : Type} [Comparable α] (a a' : α) : Prop where
  rel : Comparable.rel L a a'

/-- Two answers that correspond. -/
structure Pair (L : Likeness) (α : Type) [Comparable α] where
  left : α
  right : α
  rel : Comparable.rel L left right

/-- Rounds that go on alike, with answers that correspond. -/
inductive Parser.Round.Corresponds {α : Type} (R : α → α → Prop) : Round α → Round α → Prop where
  | more {a a' : α} (h : R a a') : Corresponds R (.more a) (.more a')
  | done {a a' : α} (h : R a a') : Corresponds R (.done a) (.done a')

instance : Comparable Node := ⟨fun L => Tree.Corresponds L.symbol⟩

instance : Comparable Symbol := ⟨Likeness.symbol⟩

instance : Comparable Unit := ⟨fun _ => Eq⟩

instance : Comparable Bool := ⟨fun _ => Eq⟩

instance : Comparable Kind := ⟨fun _ => Eq⟩

instance {α : Type} [Comparable α] : Comparable (List α) :=
  ⟨fun L => List.Forall₂ (Comparable.rel L)⟩

instance {α : Type} [Comparable α] : Comparable (Round α) :=
  ⟨fun L => Round.Corresponds (Comparable.rel L)⟩

/-- Conditions of which both hold or neither does. -/
class SameCondition (L : Likeness) (c c' : Prop) : Prop where
  iff : c ↔ c'

namespace Same

variable {L : Likeness} {α : Type} [Comparable α]

instance (x : Pair L α) : Same L x.left x.right := ⟨x.rel⟩

instance (u : Unit) : Same L u u := ⟨rfl⟩

instance (b : Bool) : Same L b b := ⟨rfl⟩

instance (k : Kind) : Same L k k := ⟨rfl⟩

instance : Same L (Tree.empty : Node) .empty := ⟨Tree.corresponds_empty⟩

instance (k k' : Kind) (cs cs' : List Node) [hk : Same L k k'] [hcs : Same L cs cs'] :
    Same L (Tree.branch k cs) (.branch k' cs') := ⟨Tree.corresponds_branch.2 ⟨hk.rel, hcs.rel⟩⟩

instance (k : Kind) : Same L (Tree.bare k : Node) (.bare k) :=
  ⟨Tree.corresponds_branch.2 ⟨rfl, .nil⟩⟩

instance (k : Kind) (s s' : Symbol) [h : Same L s s'] : Same L (Tree.leaf k s) (.leaf k s') :=
  ⟨Tree.corresponds_leaf h.rel⟩

instance : Same L ([] : List α) [] := ⟨.nil⟩

instance (a a' : α) (l l' : List α) [ha : Same L a a'] [hl : Same L l l'] :
    Same L (a :: l) (a' :: l') := ⟨.cons ha.rel hl.rel⟩

instance (l l' : List α) [hl : Same L l l'] : Same L l.reverse l'.reverse :=
  ⟨List.rel_reverse hl.rel⟩

instance (l l' : List (List α)) [hl : Same L l l'] : Same L l.flatten l'.flatten :=
  ⟨List.rel_flatten hl.rel⟩

instance (l l' : List Node) [hl : Same L l l'] :
    Same L (l.filter (!·.isEmpty)) (l'.filter (!·.isEmpty)) where
  rel := by
    refine List.rel_filter (fun t u htu => ?_) hl.rel
    change (!t.isEmpty) = true ↔ (!u.isEmpty) = true
    rw [Tree.Corresponds.isEmpty_eq htu]

instance (a a' : α) [h : Same L a a'] : Same L (Round.more a) (.more a') := ⟨.more h.rel⟩

instance (a a' : α) [h : Same L a a'] : Same L (Round.done a) (.done a') := ⟨.done h.rel⟩

instance (c c' : Prop) [Decidable c] [Decidable c'] (a a' b b' : α) [hc : SameCondition L c c']
    [ha : Same L a a'] [hb : Same L b b'] :
    Same L (if c then a else b) (if c' then a' else b') where
  rel := by
    by_cases h : c
    · rw [if_pos h, if_pos (hc.iff.1 h)]
      exact ha.rel
    · rw [if_neg h, if_neg fun h' => h (hc.iff.2 h')]
      exact hb.rel

instance (priority := low) (c : Prop) : SameCondition L c c := ⟨Iff.rfl⟩

instance (t t' : Node) [h : Same L t t'] :
    SameCondition L (t.isEmpty = true) (t'.isEmpty = true) where
  iff := by rw [Tree.Corresponds.isEmpty_eq h.rel]

instance (l l' : List α) [h : Same L l l'] :
    SameCondition L (l.isEmpty = true) (l'.isEmpty = true) where
  iff := by rw [List.isEmpty_iff_length_eq_zero, List.isEmpty_iff_length_eq_zero, h.rel.length_eq]

instance (b b' : Bool) [h : Same L b b'] : SameCondition L (b = true) (b' = true) where
  iff := by rw [show b = b' from h.rel]

instance (k : Kind) (l l' : List Node) [Same L l l'] :
    Same L (listNode k l) (listNode k l') := by
  unfold listNode
  infer_instance

end Same

/-! ## Rules that are alike -/

/-- The failure of a run that has failed. -/
def Parser.failure? {α : Type} : Except Stop α → Option Stop
  | .ok _ => none
  | .error f => some f

/-- How two runs end that are alike. -/
inductive Likeness.Ends (L : Likeness) {α : Type} (R : α → α → Prop) :
    Except Stop α × Progress → Except Stop α × Progress → Prop where
  /-- Both answer. -/
  | answered {a a' : α} {q q' : Progress} (ha : R a a') (hq : L.progress q q') :
    Ends L R (.ok a, q) (.ok a', q')
  /-- The first one fails. -/
  | failed {f : Stop} {q q' : Progress} {x' : Except Stop α}
    (h : L.failed f q (failure? x') q') : Ends L R (.error f, q) (x', q')

/-- From points that correspond the rules come to ends that are alike. -/
def AlikeBy (L : Likeness) {α : Type} (R : α → α → Prop) (m m' : Parser α) : Prop :=
  ∀ p p', L.progress p p' → L.Ends R (m.exec p) (m'.exec p')

/-- The rules are alike, and their answers correspond. -/
class Alike (L : Likeness) {α : Type} [Comparable α] (m m' : Parser α) : Prop where
  by_rel : AlikeBy L (Comparable.rel L) m m'

namespace Likeness.Ends

variable {L : Likeness} {α β : Type} {R S : α → α → Prop} {R' : β → β → Prop}
  {x x' : Except Stop α × Progress}

/-- What is read behind answers that correspond ends alike if it is alike. -/
theorem proceed {k k' : α → Parser β} (hx : L.Ends R x x')
    (hk : ∀ a a', R a a' → AlikeBy L R' (k a) (k' a'))
    (hc : ∀ a' q', Reaches L.limit q' ((k' a').exec q')) :
    L.Ends R' (Parser.proceed k x) (Parser.proceed k' x') := by
  cases hx with
  | answered ha hq => exact hk _ _ ha _ _ hq
  | @failed f q q' x' h =>
    cases x' with
    | error f' => exact .failed h
    | ok a' => exact .failed (L.failed_later h (hc a' q').reports_grow)

theorem mono (hx : L.Ends R x x') (h : ∀ a a', R a a' → S a a') : L.Ends S x x' := by
  cases hx with
  | answered ha hq => exact .answered (h _ _ ha) hq
  | @failed f q q' x' hf => cases x' <;> exact .failed hf

end Likeness.Ends

namespace AlikeBy

variable {L : Likeness} {α β : Type} {R : α → α → Prop} {R' : β → β → Prop}

theorem pure {a a' : α} (h : R a a') : AlikeBy L R (Pure.pure a) (Pure.pure a') :=
  fun _ _ hp => .answered h hp

theorem bind {m m' : Parser α} {k k' : α → Parser β} (hm : AlikeBy L R m m')
    (hk : ∀ a a', R a a' → AlikeBy L R' (k a) (k' a'))
    (hc : ∀ a', Composed L.limit (k' a')) : AlikeBy L R' (m >>= k) (m' >>= k') := by
  intro p p' hp
  rw [exec_bind, exec_bind]
  exact (hm p p' hp).proceed hk fun a' => (hc a').reaches

theorem mono {S : α → α → Prop} {m m' : Parser α} (h : AlikeBy L R m m')
    (hRS : ∀ a a', R a a' → S a a') : AlikeBy L S m m' :=
  fun p p' hp => (h p p' hp).mono hRS

/-- A choice by a condition that holds for both runs or for neither. -/
theorem ite {c c' : Prop} [Decidable c] [Decidable c'] {yes yes' no no' : Parser α}
    (hc : c ↔ c') (hy : AlikeBy L R yes yes') (hn : AlikeBy L R no no') :
    AlikeBy L R (if c then yes else no) (if c' then yes' else no') := by
  by_cases h : c
  · rw [if_pos h, if_pos (hc.1 h)]
    exact hy
  · rw [if_neg h, if_neg fun h' => h (hc.2 h')]
    exact hn

theorem ifAt {t : Token} [IsTrue t.isPlain] {yes yes' no no' : Parser α}
    (hy : AlikeBy L R yes yes') (hn : AlikeBy L R no no') :
    AlikeBy L R (ifAt t yes no) (ifAt t yes' no') := by
  intro p p' hp
  rw [exec_ifAt, exec_ifAt]
  by_cases h : p.lookahead.token = t
  · rw [if_pos h, if_pos ((Likeness.token_eq_iff hp).1 h)]
    exact hy p p' hp
  · rw [if_neg h, if_neg fun h' => h ((Likeness.token_eq_iff hp).2 h')]
    exact hn p p' hp

theorem ifAtAny {s : TokenSet} [s.Uniform] {yes yes' no no' : Parser α}
    (hy : AlikeBy L R yes yes') (hn : AlikeBy L R no no') :
    AlikeBy L R (ifAtAny s yes no) (ifAtAny s yes' no') := by
  intro p p' hp
  rw [exec_ifAtAny, exec_ifAtAny, Likeness.contains_eq hp]
  split
  · exact hy p p' hp
  · exact hn p p' hp

/-- A choice by the next token that does not look further than its normal form. -/
theorem token_bind {k k' : Token → Parser α} (h : ∀ t, AlikeBy L R (k t) (k' t))
    (hk : Token.Indistinct k := by exact ⟨rfl, rfl, rfl, rfl⟩) :
    AlikeBy L R (token >>= k) (token >>= k') := by
  intro p p' hp
  have hsame : k p.lookahead.token = k p'.lookahead.token := by
    rw [← hk.normal_eq p.lookahead.token, L.normal_eq (L.lookahead hp), hk.normal_eq]
  rw [exec_bind, exec_bind, exec_token, exec_token, proceed_ok, proceed_ok, hsame]
  exact h _ p p' hp

/-! ### Repetition -/

theorem repeatOn {round round' : α → Parser (Round α)}
    (hr : ∀ a a', R a a' → AlikeBy L (Round.Corresponds R) (round a) (round' a'))
    (hc : ∀ a', Composed L.limit (round' a')) {bound bound' : List Item}
    (hb : bound.length = bound'.length) {a a' : α} (ha : R a a') :
    AlikeBy L R (repeatOn round bound a) (repeatOn round' bound' a') := by
  have hreach (bound : List Item) (b' : α) (q' : Progress) :=
    reaches_repeatOn (fun a p => (hc a).reaches p) bound b' q'
  -- The bounds are as long as what is ahead, so that both runs make as many rounds.
  induction bound generalizing bound' a a' with
  | nil =>
    cases bound' with
    | cons i bound' => cases hb
    | nil =>
      intro p p' hp
      rw [Parser.repeatOn, Parser.repeatOn, exec_bind, exec_bind]
      refine (hr a a' ha p p' hp).proceed (fun b b' hb => ?_) fun b' q' => ?_
      · cases hb with
        | more hb => exact fun q q' hq => .failed (L.endless hq)
        | done hb => exact .pure hb
      · cases b' with
        | more b' => exact .refl q'
        | done b' => exact .refl q'
  | cons i bound ih =>
    cases bound' with
    | nil => cases hb
    | cons i' bound' =>
      intro p p' hp
      rw [Parser.repeatOn, Parser.repeatOn, exec_bind, exec_bind]
      refine (hr a a' ha p p' hp).proceed (fun b b' hbb => ?_) fun b' q' => ?_
      · cases hbb with
        | more hbb => exact ih (Nat.succ.inj hb) hbb
        | done hbb => exact .pure hbb
      · cases b' with
        | more b' => exact hreach bound' b' q'
        | done b' => exact .refl q'

theorem loop {round round' : α → Parser (Round α)}
    (hr : ∀ a a', R a a' → AlikeBy L (Round.Corresponds R) (round a) (round' a'))
    (hc : ∀ a', Composed L.limit (round' a')) {a a' : α} (ha : R a a') :
    AlikeBy L R (loop round a) (loop round' a') := by
  intro p p' hp
  rw [exec_loop, exec_loop]
  exact repeatOn hr hc (L.length_ahead hp) ha p p' hp

/-- Operations that always answer. -/
theorem of_exec {m m' : Parser α}
    (h : ∀ p p', L.progress p p' → ∃ a q a' q', m.exec p = (.ok a, q) ∧
      m'.exec p' = (.ok a', q') ∧ R a a' ∧ L.progress q q') : AlikeBy L R m m' := by
  intro p p' hp
  obtain ⟨a, q, a', q', hm, hm', ha, hq⟩ := h p p' hp
  rw [hm, hm']
  exact .answered ha hq

end AlikeBy

namespace Alike

variable {L : Likeness} {α β : Type} [Comparable α] [Comparable β]

/-- Operations that always answer. -/
theorem of_exec {m m' : Parser α}
    (h : ∀ p p', L.progress p p' → ∃ a q a' q', m.exec p = (.ok a, q) ∧
      m'.exec p' = (.ok a', q') ∧ Comparable.rel L a a' ∧ L.progress q q') : Alike L m m' :=
  ⟨.of_exec h⟩

theorem token_bind {k k' : Token → Parser α} (h : ∀ t, Alike L (k t) (k' t))
    (hk : Token.Indistinct k := by exact ⟨rfl, rfl, rfl, rfl⟩) :
    Alike L (token >>= k) (token >>= k') :=
  ⟨.token_bind (fun t => (h t).by_rel) hk⟩

theorem bind {m m' : Parser α} {k k' : α → Parser β} (hm : Alike L m m')
    (hk : ∀ x : Pair L α, Alike L (k x.left) (k' x.right)) (hc : ∀ a', Composed L.limit (k' a')) :
    Alike L (m >>= k) (m' >>= k') :=
  ⟨hm.by_rel.bind (fun a a' ha => (hk ⟨a, a', ha⟩).by_rel) hc⟩

instance (a a' : α) [h : Same L a a'] : Alike L (Pure.pure a : Parser α) (Pure.pure a') :=
  ⟨.pure h.rel⟩

instance (m m' : Parser α) (k k' : α → Parser β) [hm : Alike L m m']
    [hk : ∀ x : Pair L α, Alike L (k x.left) (k' x.right)] [hc : ∀ a', Composed L.limit (k' a')] :
    Alike L (m >>= k) (m' >>= k') := hm.bind hk hc

instance (m m' : Parser α) (f f' : α → β) [hm : Alike L m m']
    [hf : ∀ x : Pair L α, Same L (f x.left) (f' x.right)] : Alike L (f <$> m) (f' <$> m') := by
  rw [← bind_pure_comp, ← bind_pure_comp]
  exact ⟨hm.by_rel.bind (fun a a' ha => .pure (hf ⟨a, a', ha⟩).rel) fun a' => .pure (f' a')⟩

instance (c c' : Prop) [Decidable c] [Decidable c'] (yes yes' no no' : Parser α)
    [hc : SameCondition L c c'] [hy : Alike L yes yes'] [hn : Alike L no no'] :
    Alike L (if c then yes else no) (if c' then yes' else no') :=
  ⟨.ite hc.iff hy.by_rel hn.by_rel⟩

instance (t : Token) [IsTrue t.isPlain] (yes yes' no no' : Parser α) [hy : Alike L yes yes']
    [hn : Alike L no no'] : Alike L (ifAt t yes no) (ifAt t yes' no') :=
  ⟨.ifAt hy.by_rel hn.by_rel⟩

instance (s : TokenSet) [s.Uniform] (yes yes' no no' : Parser α) [hy : Alike L yes yes']
    [hn : Alike L no no'] : Alike L (ifAtAny s yes no) (ifAtAny s yes' no') :=
  ⟨.ifAtAny hy.by_rel hn.by_rel⟩

instance : Alike L lookahead lookahead :=
  of_exec fun _ _ hp => ⟨_, _, _, _, rfl, rfl, L.lookahead hp, hp⟩

instance : Alike L Parser.advance Parser.advance :=
  of_exec fun _ _ hp => ⟨_, _, _, _, rfl, rfl, rfl, L.advance hp⟩

instance : Alike L next next :=
  of_exec fun _ _ hp => ⟨_, _, _, _, rfl, rfl, L.lookahead hp, L.advance hp⟩

instance (k : Kind) : Alike L (leaf k) (leaf k) :=
  of_exec fun _ _ hp =>
    ⟨_, _, _, _, rfl, rfl, Tree.corresponds_leaf (L.lookahead hp), L.advance hp⟩

instance (s : TokenSet) [s.Uniform] : Alike L (Parser.skipTo s) (Parser.skipTo s) :=
  of_exec fun _ _ hp => ⟨_, _, _, _, rfl, rfl, rfl, Likeness.skipTo hp⟩

/-- Something is counted. -/
theorem count {f : Statistics → Statistics} (hf : Statistics.Tallies f) :
    Alike L (Parser.count f) (Parser.count f) :=
  of_exec fun _ _ hp => ⟨_, _, _, _, rfl, rfl, rfl, L.count hp hf⟩

/-- The same sort of fault is reported at symbols that correspond. -/
theorem report {d d' : Diagnostic} (hd : d.Corresponds L.symbol d') :
    Alike L (Parser.report d) (Parser.report d') :=
  of_exec fun _ _ hp => ⟨_, _, _, _, rfl, rfl, rfl, L.report hp hd⟩

end Alike

/-! ## Faults of the grammar -/

namespace Likeness

variable {L : Likeness} {s s' : Symbol}

theorem lexeme?_isSome_eq (h : L.symbol s s') : s.lexeme?.isSome = s'.lexeme?.isSome := by
  have hnormal (t : Token) : t.normal.hasLexeme = t.hasLexeme := by
    cases t <;> rfl
  have hsome (s : Symbol) : s.lexeme?.isSome = s.token.hasLexeme := by
    unfold Symbol.lexeme?
    split
    · next h => exact h.symm
    · next h => exact (Bool.eq_false_iff.2 h).symm
  rw [hsome, hsome, ← hnormal, L.normal_eq h, hnormal]

theorem concerns_faultBy (code : Code) (s : Symbol) : (faultBy code s).Concerns s := by
  refine ⟨rfl, rfl, fun text htext => ?_⟩
  change text ∈ s.lexeme? at htext
  unfold Symbol.lexeme? at htext
  split at htext
  · exact (Option.mem_some_iff.1 htext).symm
  · cases htext

theorem faultAt_corresponds (code : Code) (h : L.symbol s s') :
    (faultAt code s).Corresponds L.symbol (faultAt code s') where
  code := rfl
  severity := rfl
  char := rfl
  place := ⟨s, s', h, ⟨rfl, rfl, nofun⟩, ⟨rfl, rfl, nofun⟩, rfl⟩
  found := .none
  expected := .none

theorem faultBy_corresponds (code : Code) (h : L.symbol s s') :
    (faultBy code s).Corresponds L.symbol (faultBy code s') where
  code := rfl
  severity := rfl
  char := rfl
  place := ⟨s, s', h, concerns_faultBy code s, concerns_faultBy code s', lexeme?_isSome_eq h⟩
  found := .some ⟨s, s', h, rfl, rfl⟩
  expected := .none

/-- A fault where something is said to be expected. -/
theorem expecting {d d' : Diagnostic} (h : d.Corresponds L.symbol d') {e e' : Expected}
    (he : e.Corresponds L.symbol e') :
    { d with expected := some e }.Corresponds L.symbol { d' with expected := some e' } :=
  ⟨h.code, h.severity, h.char, h.place, h.found, .some he⟩

end Likeness

/-! ## Matching -/

/-- Identifiers that correspond, or the placeholder in both places. -/
inductive Likeness.Name (L : Likeness) : Node → Node → Prop where
  | missing : Name L .empty .empty
  | present {s s' : Symbol} (h : L.symbol s s') (hs : s.token ∈ identStart) :
    Name L (.leaf .ident s) (.leaf .ident s')

theorem Likeness.Name.corresponds {L : Likeness} {t t' : Node} (h : L.Name t t') :
    t.Corresponds L.symbol t' := by
  cases h with
  | missing => exact Tree.corresponds_empty
  | present h hs => exact Tree.corresponds_leaf h

/-- Identifiers to be closed that correspond, if they are there. -/
class SameOpening (L : Likeness) (opening opening' : Option Symbol) : Prop where
  rel : Option.Rel (fun s s' => L.symbol s s' ∧ s.token ∈ identStart) opening opening'

theorem Likeness.Name.opening {L : Likeness} {t t' : Node} (h : L.Name t t') :
    SameOpening L t.value? t'.value? := by
  cases h with
  | missing => exact ⟨.none⟩
  | present h hs => exact ⟨.some ⟨h, hs⟩⟩

namespace Alike

variable {L : Likeness} {α : Type} [Comparable α]

theorem unexpected {e : Expected} (he : e.Corresponds L.symbol e) :
    Alike L (Parser.unexpected e) (Parser.unexpected e) :=
  of_exec fun _ _ hp => ⟨_, _, _, _, rfl, rfl, rfl,
    L.report hp (Likeness.expecting (Likeness.faultBy_corresponds _ (L.lookahead hp)) he)⟩

instance (t : Token) : Alike L (Parser.unexpected (.token t)) (Parser.unexpected (.token t)) :=
  unexpected (.token t)

instance (s : TokenSet) : Alike L (Parser.unexpected (.set s)) (Parser.unexpected (.set s)) :=
  unexpected (.set s)

instance (t : Token) [IsTrue t.isPlain] (s : TokenSet) [s.Uniform] :
    Alike L (accept t s) (accept t s) := by
  unfold accept
  infer_instance

instance (t : Token) [IsTrue t.isPlain] (s : TokenSet) [s.Uniform] :
    Alike L (expect t s) (expect t s) := by
  rw [expect_eq]
  infer_instance

instance (s r : TokenSet) [s.Uniform] [r.Uniform] : Alike L (expectAny s r) (expectAny s r) := by
  unfold expectAny
  infer_instance

/-- Of an identifier it is known where it comes from. -/
theorem ident_name (s : TokenSet) [s.Uniform] : AlikeBy L L.Name (ident s) (ident s) := by
  have hmissing : Alike L (do Parser.unexpected (.token .stdIdent); Parser.skipTo s)
      (do Parser.unexpected (.token .stdIdent); Parser.skipTo s) := inferInstance
  intro p p' hp
  have hsame := Likeness.contains_eq (s := identStart) hp
  unfold ident
  rw [exec_ifAtAny, exec_ifAtAny, ← hsame]
  split
  · next hs => exact .answered (.present (L.lookahead hp) hs) (L.advance hp)
  · have hx := hmissing.by_rel p p' hp
    rw [← bind_assoc, exec_bind, exec_bind]
    exact hx.proceed (fun _ _ _ => .pure .missing) fun _ q' => .refl q'

instance (s : TokenSet) [s.Uniform] : Alike L (ident s) (ident s) :=
  ⟨(ident_name s).mono fun _ _ => Likeness.Name.corresponds⟩

/-- The closing identifiers of two runs both match, or neither does. -/
theorem noteClosing {opening opening' : Option Symbol} [ho : SameOpening L opening opening']
    {p p' : Progress} (hp : L.progress p p') (hs : p.lookahead.token ∈ identStart) :
    L.progress (((closingFault? opening p.lookahead).map p.report).getD p)
      (((closingFault? opening' p'.lookahead).map p'.report).getD p') := by
  cases ho.rel with
  | none => exact hp
  | @some s s' h =>
    have htext := L.text_eq_iff h.1 (L.lookahead hp) h.2 hs
    unfold closingFault?
    dsimp only
    by_cases hclose : s.text = p.lookahead.text
    · rw [if_pos hclose, if_pos (htext.1 hclose)]
      exact hp
    · rw [if_neg hclose, if_neg fun h' => hclose (htext.2 h')]
      refine L.report hp ⟨rfl, rfl, rfl, ⟨_, _, L.lookahead hp, ?_, ?_, rfl⟩, .none, ?_⟩
      · exact ⟨rfl, rfl, fun text htext => (Option.mem_some_iff.1 htext).symm⟩
      · exact ⟨rfl, rfl, fun text htext => (Option.mem_some_iff.1 htext).symm⟩
      · exact .some (.name h.1)

instance (opening opening' : Option Symbol) [SameOpening L opening opening'] (s : TokenSet)
    [s.Uniform] : Alike L (closing opening s) (closing opening' s) := by
  have hmissing : Alike L (do Parser.unexpected (.token .stdIdent); Parser.skipTo s)
      (do Parser.unexpected (.token .stdIdent); Parser.skipTo s) := inferInstance
  refine ⟨fun p p' hp => ?_⟩
  have hsame := Likeness.contains_eq (s := identStart) hp
  rw [closing_eq, closing_eq, exec_ifAtAny, exec_ifAtAny, ← hsame]
  split
  · next hs =>
    rw [exec_bind, exec_bind, exec_noteClosing, exec_noteClosing, proceed_ok, proceed_ok]
    exact .answered rfl (L.advance (noteClosing hp hs))
  · exact hmissing.by_rel p p' hp

/-! ### Repetition -/

instance (round round' : α → Parser (Round α)) (a a' : α) [ha : Same L a a']
    [hr : ∀ x : Pair L α, Alike L (round x.left) (round' x.right)]
    [hc : ∀ a', Composed L.limit (round' a')] : Alike L (loop round a) (loop round' a') :=
  ⟨.loop (fun a a' ha => (hr ⟨a, a', ha⟩).by_rel) hc ha.rel⟩

instance (t : Token) [IsTrue t.isPlain] (item item' : Parser α) [Alike L item item']
    [Composed L.limit item'] : Alike L (separated t item) (separated t item') := by
  unfold separated
  infer_instance

instance (s : TokenSet) [s.Uniform] (item item' : Parser α) [Alike L item item']
    [Composed L.limit item'] : Alike L (whileAtAny s item) (whileAtAny s item') := by
  unfold whileAtAny
  infer_instance

end Alike

end Modula
