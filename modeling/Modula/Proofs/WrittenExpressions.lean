import Modula.Proofs.ExactReading
import Modula.Proofs.Shape
import Modula.Proofs.Values

/-!
# Written expressions

How the tree of an expression is written. An operand that binds more loosely than its place allows
stands in parentheses, and any operand, argument, subscript or component may stand in more of them;
only a designator cannot. What is written is a row of symbols, and the leaves of the tree are the
texts of those symbols.

Every tree of an expression without gaps can be written, if its leaves are the texts of symbols that
become such leaves, and if the lists that are written without brackets of their own are long enough
to be told.
-/

namespace Modula

open Modula.Grammar

/-! ## Places -/

/-- The places of expressions, from the one for all of them to the tightest. -/
inductive Place where
  /-- A whole expression. -/
  | expression
  /-- An operand of a relation, and what stands left of an additive operator. -/
  | sum
  /-- What stands right of an additive operator or behind a sign, and left of a multiplicative
  operator. -/
  | product
  /-- What stands right of a multiplicative operator. -/
  | unary
  /-- The operand of `NOT`. -/
  | conversion
  /-- What is converted. -/
  | atom
deriving DecidableEq, Repr

namespace Place

/-- How tight a place is. -/
def rank : Place → Nat
  | expression => 0
  | sum => 1
  | product => 2
  | unary => 3
  | conversion => 4
  | atom => 5

/-- What an operand at the place starts with. -/
def start : Place → TokenSet
  | atom | conversion => identStart ∪ literalStart ∪ tokens [.lBrace, .lParen]
  | unary | product => identStart ∪ literalStart ∪ tokens [.lBrace, .lParen, .kwNot]
  | sum | expression => identStart ∪ literalStart ∪ tokens [.lBrace, .lParen, .kwNot, .minus]

theorem start_subset {place place' : Place} (h : place.rank ≤ place'.rank) :
    place'.start.isSubsetOf place.start = true := by
  revert h
  cases place <;> cases place' <;> decide

end Place

/-! ## What is written -/

/-- The sorts of lists with commas. -/
inductive Listing where
  /-- Arguments and subscripts. -/
  | values
  /-- Components of a structured value. -/
  | components
deriving DecidableEq, Repr

/-- The parts of an expression that are written as a whole. -/
inductive Phrase where
  /-- An operand at a place. -/
  | operand (place : Place) (t : Tree String)
  /-- An expression without parentheses around it, and the tightest place where it stands so. -/
  | bare (place : Place) (t : Tree String)
  | designator (t : Tree String)
  /-- One thing of a list. -/
  | item (sort : Listing) (t : Tree String)
  /-- The things of a list, at least one. -/
  | items (sort : Listing) (ts : List (Tree String))
  /-- A list that may be empty. -/
  | list (sort : Listing) (ts : List (Tree String))

/-- Identifiers with dots between them. -/
inductive Dotted : List (Tree String) → List Unplaced → Prop where
  | last {i : Unplaced} (hi : i.token ∈ identStart) : Dotted [.leaf .ident i.text] [i]
  | more {i s : Unplaced} {ts : List (Tree String)} {u : List Unplaced} (hi : i.token ∈ identStart)
    (hs : s.token = .dot) (h : Dotted ts u) : Dotted (.leaf .ident i.text :: ts) (i :: s :: u)

/-- An identifier, simple or qualified. -/
inductive Named : Tree String → List Unplaced → Prop where
  | simple {i : Unplaced} (hi : i.token ∈ identStart) : Named (.leaf .ident i.text) [i]
  | qualified {ts : List (Tree String)} {u : List Unplaced} (h : Dotted ts u)
    (hlength : 2 ≤ ts.length) : Named (.branch .qualifiedIdent ts) u

/-- The phrase is written so, with brackets inside each other at most so deep. -/
inductive Written : Nat → Phrase → List Unplaced → Prop where
  /-- An operand in parentheses. -/
  | enclosed {n : Nat} {place : Place} {t : Tree String} {u : List Unplaced} {l r : Unplaced}
    (hl : l.token = .lParen) (hr : r.token = .rParen) (h : Written n (.operand .expression t) u) :
    Written (n + 1) (.operand place t) (l :: (u ++ [r]))
  /-- An operand that binds as tightly as its place asks for. -/
  | plain {n : Nat} {place place' : Place} {t : Tree String} {u : List Unplaced}
    (hplace : place.rank ≤ place'.rank) (h : Written n (.bare place' t) u) :
    Written n (.operand place t) u
  | relation {n : Nat} {k : Kind} {a b : Tree String} {u v : List Unplaced} {s : Unplaced}
    (hs : relationKind? s.token = some k) (ha : Written n (.operand .sum a) u)
    (hb : Written n (.operand .sum b) v) :
    Written n (.bare .expression (.branch k [a, b])) (u ++ s :: v)
  | additive {n : Nat} {k : Kind} {a b : Tree String} {u v : List Unplaced} {s : Unplaced}
    (hs : additiveKind? s.token = some k) (ha : Written n (.operand .sum a) u)
    (hb : Written n (.operand .product b) v) :
    Written n (.bare .sum (.branch k [a, b])) (u ++ s :: v)
  | multiplicative {n : Nat} {k : Kind} {a b : Tree String} {u v : List Unplaced} {s : Unplaced}
    (hs : multiplicativeKind? s.token = some k) (ha : Written n (.operand .product a) u)
    (hb : Written n (.operand .unary b) v) :
    Written n (.bare .product (.branch k [a, b])) (u ++ s :: v)
  | negation {n : Nat} {a : Tree String} {u : List Unplaced} {s : Unplaced} (hs : s.token = .minus)
    (ha : Written n (.operand .product a) u) :
    Written n (.bare .sum (.branch .negation [a])) (s :: u)
  | not {n : Nat} {a : Tree String} {u : List Unplaced} {s : Unplaced} (hs : s.token = .kwNot)
    (ha : Written n (.operand .conversion a) u) :
    Written n (.bare .unary (.branch .not [a])) (s :: u)
  | conversion {n : Nat} {a b : Tree String} {u v : List Unplaced} {s : Unplaced}
    (hs : s.token = .typeConv) (ha : Written n (.operand .atom a) u) (hb : Named b v) :
    Written n (.bare .conversion (.branch .typeConversion [a, b])) (u ++ s :: v)
  | literal {n : Nat} {k : Kind} {s : Unplaced} (hs : literalKind? s.token = some k) :
    Written n (.bare .atom (.leaf k s.text)) [s]
  | structured {n : Nat} {ts : List (Tree String)} {u : List Unplaced} {l r : Unplaced}
    (hl : l.token = .lBrace) (hr : r.token = .rBrace) (h : Written n (.list .components ts) u) :
    Written (n + 1) (.bare .atom (.branch .structuredValue ts)) (l :: (u ++ [r]))
  /-- A designator as an operand. -/
  | value {n : Nat} {t : Tree String} {u : List Unplaced} (h : Written n (.designator t) u) :
    Written n (.bare .atom t) u
  | call {n : Nat} {d : Tree String} {ts : List (Tree String)} {u v : List Unplaced}
    {l r : Unplaced} (hd : Written (n + 1) (.designator d) u) (hl : l.token = .lParen)
    (hr : r.token = .rParen) (h : Written n (.list .values ts) v) :
    Written (n + 1) (.bare .atom (.branch .functionCall [d, .branch .arguments ts]))
      (u ++ l :: (v ++ [r]))
  | ident {n : Nat} {i : Unplaced} (hi : i.token ∈ identStart) :
    Written n (.designator (.leaf .ident i.text)) [i]
  | field {n : Nat} {d : Tree String} {u : List Unplaced} {s i : Unplaced}
    (hd : Written n (.designator d) u) (hs : s.token = .dot) (hi : i.token ∈ identStart) :
    Written n (.designator (.branch .field [d, .leaf .ident i.text])) (u ++ [s, i])
  | subscript {n : Nat} {d : Tree String} {ts : List (Tree String)} {u v : List Unplaced}
    {l r : Unplaced} (hd : Written (n + 1) (.designator d) u) (hl : l.token = .lBracket)
    (hr : r.token = .rBracket) (h : Written n (.items .values ts) v) :
    Written (n + 1) (.designator (.branch .subscript [d, .branch .expressionList ts]))
      (u ++ l :: (v ++ [r]))
  | dereference {n : Nat} {d : Tree String} {u : List Unplaced} {s : Unplaced}
    (hd : Written n (.designator d) u) (hs : s.token = .deref) :
    Written n (.designator (.branch .dereference [d])) (u ++ [s])
  /-- A list of nothing. -/
  | nothing {n : Nat} {sort : Listing} : Written n (.list sort []) []
  | something {n : Nat} {sort : Listing} {ts : List (Tree String)} {u : List Unplaced}
    (h : Written n (.items sort ts) u) : Written n (.list sort ts) u
  | last {n : Nat} {sort : Listing} {t : Tree String} {u : List Unplaced}
    (h : Written n (.item sort t) u) : Written n (.items sort [t]) u
  | more {n : Nat} {sort : Listing} {t : Tree String} {ts : List (Tree String)}
    {u v : List Unplaced} {s : Unplaced} (ht : Written n (.item sort t) u) (hs : s.token = .comma)
    (hts : Written n (.items sort ts) v) : Written n (.items sort (t :: ts)) (u ++ s :: v)
  | single {n : Nat} {sort : Listing} {t : Tree String} {u : List Unplaced}
    (h : Written n (.operand .expression t) u) : Written n (.item sort t) u
  | range {n : Nat} {a b : Tree String} {u v : List Unplaced} {s : Unplaced}
    (ha : Written n (.operand .expression a) u) (hs : s.token = .dotDot)
    (hb : Written n (.operand .expression b) v) :
    Written n (.item .components (.branch .range [a, b])) (u ++ s :: v)

/-- Brackets may be fewer than allowed. -/
theorem Written.mono {n m : Nat} {φ : Phrase} {u : List Unplaced} (h : Written n φ u)
    (hnm : n ≤ m) : Written m φ u := by
  induction h generalizing m with
  | enclosed hl hr _ ih =>
    obtain ⟨m, rfl⟩ := Nat.exists_eq_succ_of_ne_zero (Nat.ne_zero_of_lt hnm)
    exact .enclosed hl hr (ih (Nat.le_of_succ_le_succ hnm))
  | plain hplace _ ih => exact .plain hplace (ih hnm)
  | relation hs _ _ iha ihb => exact .relation hs (iha hnm) (ihb hnm)
  | additive hs _ _ iha ihb => exact .additive hs (iha hnm) (ihb hnm)
  | multiplicative hs _ _ iha ihb => exact .multiplicative hs (iha hnm) (ihb hnm)
  | negation hs _ ih => exact .negation hs (ih hnm)
  | not hs _ ih => exact .not hs (ih hnm)
  | conversion hs _ hb ih => exact .conversion hs (ih hnm) hb
  | literal hs => exact .literal hs
  | structured hl hr _ ih =>
    obtain ⟨m, rfl⟩ := Nat.exists_eq_succ_of_ne_zero (Nat.ne_zero_of_lt hnm)
    exact .structured hl hr (ih (Nat.le_of_succ_le_succ hnm))
  | value _ ih => exact .value (ih hnm)
  | call _ hl hr _ ihd ih =>
    obtain ⟨m, rfl⟩ := Nat.exists_eq_succ_of_ne_zero (Nat.ne_zero_of_lt hnm)
    exact .call (ihd hnm) hl hr (ih (Nat.le_of_succ_le_succ hnm))
  | ident hi => exact .ident hi
  | field _ hs hi ih => exact .field (ih hnm) hs hi
  | subscript _ hl hr _ ihd ih =>
    obtain ⟨m, rfl⟩ := Nat.exists_eq_succ_of_ne_zero (Nat.ne_zero_of_lt hnm)
    exact .subscript (ihd hnm) hl hr (ih (Nat.le_of_succ_le_succ hnm))
  | dereference _ hs ih => exact .dereference (ih hnm) hs
  | nothing => exact .nothing
  | something _ ih => exact .something (ih hnm)
  | last _ ih => exact .last (ih hnm)
  | more _ hs _ iht ihts => exact .more (iht hnm) hs (ihts hnm)
  | single _ ih => exact .single (ih hnm)
  | range _ hs _ iha ihb => exact .range (iha hnm) hs (ihb hnm)

/-! ## What is written first -/

/-- What a phrase starts with. -/
def Phrase.start : Phrase → TokenSet
  | operand place _ | bare place _ => place.start
  | designator _ => identStart
  | item _ _ | items _ _ => Place.expression.start
  | list _ _ => ∅

/-- A phrase that is not a list that may be empty starts with one of its tokens. -/
theorem Written.startsIn {n : Nat} {φ : Phrase} {u : List Unplaced} (h : Written n φ u)
    (hlist : ∀ sort ts, φ ≠ .list sort ts) : StartsIn φ.start u := by
  have hword {place : Place} {t : Token} (ht : t ∈ place.start) {s : Unplaced} (hs : s.token = t)
      (v : List Unplaced) : StartsIn place.start (s :: v) := ⟨s, v, rfl, hs ▸ ht⟩
  have htighter {place place' : Place} {u : List Unplaced} (h : StartsIn place'.start u)
      (hplace : place.rank ≤ place'.rank) : StartsIn place.start u :=
    h.mono (Place.start_subset hplace)
  have hdesignator {u : List Unplaced} (h : StartsIn identStart u) :
      StartsIn Place.atom.start u := h.mono (by decide)
  induction h with
  | @enclosed n place t u l r hl hr _ _ => exact hword (by cases place <;> decide) hl _
  | plain hplace _ ih => exact htighter (ih nofun) hplace
  | relation _ _ _ iha _ => exact (htighter (iha nofun) (by decide)).append _
  | additive _ _ _ iha _ | multiplicative _ _ _ iha _ => exact (iha nofun).append _
  | negation hs _ _ => exact hword (by decide) hs _
  | not hs _ _ => exact hword (by decide) hs _
  | conversion _ _ _ iha => exact (htighter (iha nofun) (by decide)).append _
  | @literal n k s hs =>
    refine ⟨s, [], rfl, ?_⟩
    change s.token ∈ Place.atom.start
    revert hs
    cases s.token <;> rintro ⟨⟩ <;> decide
  | structured hl _ _ _ => exact hword (by decide) hl _
  | value _ ih => exact hdesignator (ih nofun)
  | call _ _ _ _ ihd _ => exact (hdesignator (ihd nofun)).append _
  | ident hi => exact ⟨_, _, rfl, hi⟩
  | field _ _ _ ih => exact (ih nofun).append _
  | subscript _ _ _ _ ihd _ => exact (ihd nofun).append _
  | dereference _ _ ih => exact (ih nofun).append _
  | nothing | something => exact absurd rfl (hlist _ _)
  | last _ ih => exact ih nofun
  | more _ _ _ iht _ => exact (iht nofun).append _
  | single _ ih => exact ih nofun
  | range _ _ _ iha _ => exact (iha nofun).append _

/-! ## Every expression can be written -/

namespace Tree

variable {α β : Type}

theorem map_branch (f : α → β) (k : Kind) (cs : List (Tree α)) :
    (branch k cs).map f = branch k (cs.map (map f)) := by
  rw [branch, map, mapAll_eq_map]
  rfl

theorem map_leaf (f : α → β) (k : Kind) (v : α) : (leaf k v).map f = leaf k (f v) := rfl

theorem kind_map (f : α → β) (t : Tree α) : (t.map f).kind = t.kind := by
  cases t
  rfl

/-- Qualified identifiers have at least two parts, and there is at least one subscript. -/
inductive ListsFilled : Tree α → Prop where
  | node {k : Kind} {v : Option α} {cs : List (Tree α)}
    (hname : k = .qualifiedIdent → 2 ≤ cs.length) (hsubscripts : k = .expressionList → cs ≠ [])
    (hcs : ∀ c ∈ cs, ListsFilled c) : ListsFilled (.node k v cs)

end Tree

/-- The tree of an expression without gaps: every node has the parts of its kind, the leaves are
symbols that become such leaves, and lists have enough parts to be told. -/
structure IsExpression (t : Node) : Prop where
  fits : Fits true .expression t
  leaves : ∀ e ∈ t.values, e.2.token.terminalKind? = some e.1
  lists : t.ListsFilled

theorem Slot.Admits.mem {slot : Slot} {k : Kind} (h : slot.Admits true k) : k ∈ slot.kinds :=
  h.resolve_right nofun

/-- The row is made of symbols of the class and of tokens in their own spelling. -/
def MadeOf (L : Unplaced → Prop) (u : List Unplaced) : Prop := ∀ s ∈ u, L s ∨ s.IsSpelled

section

variable {L : Unplaced → Prop}

namespace MadeOf

variable {u v : List Unplaced} {t t' : Token}

theorem nil : MadeOf L [] := by simp [MadeOf]

theorem leaf {s : Unplaced} (hs : L s) : MadeOf L [s] := by simp [MadeOf, hs]

theorem append (hu : MadeOf L u) (hv : MadeOf L v) : MadeOf L (u ++ v) :=
  List.forall_mem_append.2 ⟨hu, hv⟩

theorem word (ht : (Unplaced.ofToken t).IsSpelled) (hu : MadeOf L u) :
    MadeOf L (.ofToken t :: u) := List.forall_mem_cons.2 ⟨.inr ht, hu⟩

theorem between (hu : MadeOf L u) (ht : (Unplaced.ofToken t).IsSpelled) (hv : MadeOf L v) :
    MadeOf L (u ++ .ofToken t :: v) := hu.append (hv.word ht)

theorem brackets (ht : (Unplaced.ofToken t).IsSpelled) (hu : MadeOf L u)
    (ht' : (Unplaced.ofToken t').IsSpelled) : MadeOf L (.ofToken t :: (u ++ [.ofToken t'])) :=
  (hu.between ht' nil).word ht

end MadeOf

/-! ### Phrases that can be written -/

variable (L) in
/-- The phrase can be written with symbols of the class and tokens in their own spelling. -/
def Phrase.CanBeWritten (φ : Phrase) : Prop := ∃ n u, Written n φ u ∧ MadeOf L u

namespace Phrase

variable {φ ψ : Phrase} {sort : Listing} {ts : List (Tree String)}

/-- Two phrases with as many brackets allowed for one as for the other. -/
theorem CanBeWritten.both (h : φ.CanBeWritten L) (h' : ψ.CanBeWritten L) :
    ∃ n u v, (Written n φ u ∧ MadeOf L u) ∧ Written n ψ v ∧ MadeOf L v := by
  obtain ⟨n, u, hu, hmade⟩ := h
  obtain ⟨m, v, hv, hmade'⟩ := h'
  exact ⟨max n m, u, v, ⟨hu.mono (Nat.le_max_left n m), hmade⟩, hv.mono (Nat.le_max_right n m),
    hmade'⟩

theorem canBeWritten_items (hts : ∀ t ∈ ts, (item sort t).CanBeWritten L) (hne : ts ≠ []) :
    (items sort ts).CanBeWritten L := by
  induction ts with
  | nil => exact absurd rfl hne
  | cons t ts ih =>
    obtain ⟨ht, hts⟩ := List.forall_mem_cons.1 hts
    by_cases hnil : ts = []
    · obtain ⟨n, u, hu, hmade⟩ := ht
      exact ⟨n, u, hnil ▸ .last hu, hmade⟩
    · obtain ⟨n, u, v, ⟨hu, hmade⟩, hv, hmade'⟩ := ht.both (ih hts hnil)
      exact ⟨n, _, .more (s := .ofToken .comma) hu rfl hv, hmade.between rfl hmade'⟩

theorem canBeWritten_list (hts : ∀ t ∈ ts, (item sort t).CanBeWritten L) :
    (list sort ts).CanBeWritten L := by
  by_cases hnil : ts = []
  · exact ⟨0, [], hnil ▸ .nothing, .nil⟩
  · obtain ⟨n, u, hu, hmade⟩ := canBeWritten_items hts hnil
    exact ⟨n, u, .something hu, hmade⟩

end Phrase

variable (L) in
/-- The tree is an identifier with a symbol of the class. -/
def IsIdentOf (t : Tree String) : Prop :=
  ∃ i : Unplaced, i.token ∈ identStart ∧ L i ∧ t = .leaf .ident i.text

theorem exists_dotted {ts : List (Tree String)} (hts : ∀ t ∈ ts, IsIdentOf L t) (hne : ts ≠ []) :
    ∃ u, Dotted ts u ∧ MadeOf L u := by
  induction ts with
  | nil => exact absurd rfl hne
  | cons t ts ih =>
    obtain ⟨⟨i, hi, hL, rfl⟩, hlater⟩ := List.forall_mem_cons.1 hts
    by_cases hnil : ts = []
    · exact ⟨[i], hnil ▸ .last hi, .leaf hL⟩
    · obtain ⟨u, hu, hmade⟩ := ih hlater hnil
      exact ⟨_, .more (s := .ofToken .dot) hi rfl hu, (MadeOf.leaf hL).between rfl hmade⟩

/-! ### Trees that can be written -/

variable (L) in
/-- The tree can be written wherever its kind may stand. -/
structure Writable (t : Node) : Prop where
  expression : t.kind ∈ Slot.expression.kinds →
    ∃ place, (Phrase.bare place (t.map Symbol.text)).CanBeWritten L
  designator : t.kind ∈ Slot.designator.kinds →
    (Phrase.designator (t.map Symbol.text)).CanBeWritten L
  range : t.kind = .range → (Phrase.item .components (t.map Symbol.text)).CanBeWritten L
  subscripts : t.kind = .expressionList → ∃ ts, t.map Symbol.text = .branch .expressionList ts ∧
    (Phrase.items .values ts).CanBeWritten L
  arguments : t.kind = .arguments → ∃ ts, t.map Symbol.text = .branch .arguments ts ∧
    (Phrase.list .values ts).CanBeWritten L
  ident : t.kind = .ident → IsIdentOf L (t.map Symbol.text)
  name : t.kind = .qualifiedIdent → ∃ u, Named (t.map Symbol.text) u ∧ MadeOf L u

namespace Writable

variable {t : Node}

/-- Parentheses make any expression an operand at any place. -/
theorem operand (h : Writable L t) (ht : t.kind ∈ Slot.expression.kinds) (place : Place) :
    (Phrase.operand place (t.map Symbol.text)).CanBeWritten L := by
  obtain ⟨place', n, u, hbare, hmade⟩ := h.expression ht
  by_cases hplace : place.rank ≤ place'.rank
  · exact ⟨n, u, .plain hplace hbare, hmade⟩
  · exact ⟨_, _, .enclosed (l := .ofToken .lParen) (r := .ofToken .rParen) rfl rfl
      (.plain (Nat.zero_le _) hbare), .brackets rfl hmade rfl⟩

theorem item (h : Writable L t) (ht : t.kind ∈ Slot.expression.kinds) (sort : Listing) :
    (Phrase.item sort (t.map Symbol.text)).CanBeWritten L := by
  obtain ⟨n, u, hu, hmade⟩ := h.operand ht .expression
  exact ⟨n, u, .single hu, hmade⟩

theorem component (h : Writable L t) (ht : t.kind ∈ Slot.component.kinds) :
    (Phrase.item .components (t.map Symbol.text)).CanBeWritten L := by
  rcases List.mem_cons.1 ht with ht | ht
  · exact h.range ht
  · exact h.item ht .components

theorem qualident (h : Writable L t) (ht : t.kind ∈ Slot.qualident.kinds) :
    ∃ u, Named (t.map Symbol.text) u ∧ MadeOf L u := by
  rcases List.mem_cons.1 ht with ht | ht
  · obtain ⟨i, hi, hL, htext⟩ := h.ident ht
    exact ⟨[i], htext ▸ .simple hi, .leaf hL⟩
  · exact h.name (List.mem_singleton.1 ht)

/-- A tree that is no expression. -/
theorem of_part (hno : t.kind ∉ Slot.expression.kinds)
    (hrange : t.kind = .range → (Phrase.item .components (t.map Symbol.text)).CanBeWritten L)
    (hsubscripts : t.kind = .expressionList →
      ∃ ts, t.map Symbol.text = .branch .expressionList ts ∧
        (Phrase.items .values ts).CanBeWritten L)
    (harguments : t.kind = .arguments →
      ∃ ts, t.map Symbol.text = .branch .arguments ts ∧ (Phrase.list .values ts).CanBeWritten L)
    (hname : t.kind = .qualifiedIdent → ∃ u, Named (t.map Symbol.text) u ∧ MadeOf L u) :
    Writable L t where
  expression h := absurd h hno
  designator h :=
    absurd ((by decide : ∀ k ∈ Slot.designator.kinds, k ∈ Slot.expression.kinds) _ h) hno
  range := hrange
  subscripts := hsubscripts
  arguments := harguments
  ident h := absurd (h ▸ by decide) hno
  name := hname

/-- A node that is no part of an expression. -/
theorem of_other {k : Kind} {cs : List Node} (hno : k ∉ Slot.expression.kinds ∧ k ≠ .range ∧
    k ≠ .expressionList ∧ k ≠ .arguments ∧ k ≠ .qualifiedIdent) : Writable L (.branch k cs) :=
  of_part hno.1 (absurd · hno.2.1) (absurd · hno.2.2.1) (absurd · hno.2.2.2.1)
    (absurd · hno.2.2.2.2)

/-- An expression that is no designator. -/
theorem of_bare (k : Kind) (place : Place) (hk : t.kind = k)
    (hno : k ∉ Slot.designator.kinds ∧ k ≠ .range ∧ k ≠ .expressionList ∧ k ≠ .arguments ∧
      k ≠ .qualifiedIdent)
    (h : (Phrase.bare place (t.map Symbol.text)).CanBeWritten L) : Writable L t := by
  subst hk
  obtain ⟨hd, hr, hs, ha, hn⟩ := hno
  exact ⟨fun _ => ⟨place, h⟩, (absurd · hd), (absurd · hr), (absurd · hs), (absurd · ha),
    fun hi => absurd (hi ▸ by decide) hd, (absurd · hn)⟩

/-- A designator with a selector. -/
theorem of_designator (k : Kind) (hk : t.kind = k)
    (hno : k ≠ .range ∧ k ≠ .expressionList ∧ k ≠ .arguments ∧ k ≠ .ident ∧ k ≠ .qualifiedIdent)
    (h : (Phrase.designator (t.map Symbol.text)).CanBeWritten L) : Writable L t := by
  subst hk
  obtain ⟨hr, hs, ha, hi, hn⟩ := hno
  obtain ⟨n, u, hu, hmade⟩ := id h
  exact ⟨fun _ => ⟨.atom, n, u, .value hu, hmade⟩, fun _ => h, (absurd · hr), (absurd · hs),
    (absurd · ha), (absurd · hi), (absurd · hn)⟩

end Writable

/-- The token between the operands of a node, where there is one. -/
def Kind.operator? : Kind → Option Token
  | .equal => some .equal
  | .notEqual => some .notEqual
  | .less => some .less
  | .lessOrEqual => some .lessOrEqual
  | .greater => some .greater
  | .greaterOrEqual => some .greaterOrEqual
  | .identity => some .identity
  | .isIn => some .kwIn
  | .plus => some .plus
  | .minus => some .minus
  | .or => some .kwOr
  | .times => some .asterisk
  | .divide => some .solidus
  | .div => some .kwDiv
  | .mod => some .kwMod
  | .and => some .kwAnd
  | _ => none

/-- Every operator belongs to a level and is spelled in one way. -/
theorem Kind.level_of_operator? {k : Kind} {t : Token} (h : k.operator? = some t) :
    (relationKind? t = some k ∨ additiveKind? t = some k ∨ multiplicativeKind? t = some k) ∧
      (Unplaced.ofToken t).IsSpelled := by
  revert h
  cases k <;> rintro ⟨⟩ <;> exact ⟨by decide, rfl⟩

namespace Writable

variable {k : Kind} {a b : Node}

theorem of_operator {t : Token} (hk : k.operator? = some t) (ha : Writable L a)
    (hb : Writable L b) (hka : a.kind ∈ Slot.expression.kinds)
    (hkb : b.kind ∈ Slot.expression.kinds) : Writable L (.branch k [a, b]) := by
  have hno : k ∉ Slot.designator.kinds ∧ k ≠ .range ∧ k ≠ .expressionList ∧ k ≠ .arguments ∧
      k ≠ .qualifiedIdent := by
    revert hk
    cases k <;> rintro ⟨⟩ <;> decide
  have hbare : ∃ place,
      (Phrase.bare place ((Tree.branch k [a, b]).map Symbol.text)).CanBeWritten L := by
    rw [Tree.map_branch]
    obtain ⟨hs | hs | hs, hspelled⟩ := Kind.level_of_operator? hk
    · obtain ⟨n, u, v, ⟨hu, hmade⟩, hv, hmade'⟩ := (ha.operand hka .sum).both (hb.operand hkb .sum)
      exact ⟨_, n, _, .relation (s := .ofToken t) hs hu hv, hmade.between hspelled hmade'⟩
    · obtain ⟨n, u, v, ⟨hu, hmade⟩, hv, hmade'⟩ :=
        (ha.operand hka .sum).both (hb.operand hkb .product)
      exact ⟨_, n, _, .additive (s := .ofToken t) hs hu hv, hmade.between hspelled hmade'⟩
    · obtain ⟨n, u, v, ⟨hu, hmade⟩, hv, hmade'⟩ :=
        (ha.operand hka .product).both (hb.operand hkb .unary)
      exact ⟨_, n, _, .multiplicative (s := .ofToken t) hs hu hv, hmade.between hspelled hmade'⟩
  obtain ⟨place, h⟩ := hbare
  exact of_bare k place rfl hno h

theorem of_prefix (hk : k = .negation ∨ k = .not) (ha : Writable L a)
    (hka : a.kind ∈ Slot.expression.kinds) : Writable L (.branch k [a]) := by
  rcases hk with rfl | rfl
  · obtain ⟨n, u, hu, hmade⟩ := ha.operand hka .product
    refine of_bare .negation .sum rfl (by decide) ?_
    rw [Tree.map_branch]
    exact ⟨n, _, .negation (s := .ofToken .minus) rfl hu, hmade.word rfl⟩
  · obtain ⟨n, u, hu, hmade⟩ := ha.operand hka .conversion
    refine of_bare .not .unary rfl (by decide) ?_
    rw [Tree.map_branch]
    exact ⟨n, _, .not (s := .ofToken .kwNot) rfl hu, hmade.word rfl⟩

theorem of_conversion (ha : Writable L a) (hb : Writable L b)
    (hka : a.kind ∈ Slot.expression.kinds) (hkb : b.kind ∈ Slot.qualident.kinds) :
    Writable L (.branch .typeConversion [a, b]) := by
  obtain ⟨n, u, hu, hmade⟩ := ha.operand hka .atom
  obtain ⟨v, hv, hmade'⟩ := hb.qualident hkb
  refine of_bare .typeConversion .conversion rfl (by decide) ?_
  rw [Tree.map_branch]
  exact ⟨n, _, .conversion (s := .ofToken .typeConv) rfl hu hv, hmade.between rfl hmade'⟩

theorem of_call (ha : Writable L a) (hb : Writable L b) (hka : a.kind ∈ Slot.designator.kinds)
    (hkb : b.kind = .arguments) : Writable L (.branch .functionCall [a, b]) := by
  obtain ⟨ts, hts, hlist⟩ := hb.arguments hkb
  obtain ⟨n, u, v, ⟨hu, hmade⟩, hv, hmade'⟩ := (ha.designator hka).both hlist
  refine of_bare .functionCall .atom rfl (by decide) ?_
  rw [Tree.map_branch, List.map_cons, List.map_singleton, hts]
  exact ⟨n + 1, _, .call (l := .ofToken .lParen) (r := .ofToken .rParen)
    (hu.mono (Nat.le_succ n)) rfl rfl hv, hmade.append (.brackets rfl hmade' rfl)⟩

theorem of_field (ha : Writable L a) (hb : Writable L b) (hka : a.kind ∈ Slot.designator.kinds)
    (hkb : b.kind = .ident) : Writable L (.branch .field [a, b]) := by
  obtain ⟨n, u, hu, hmade⟩ := ha.designator hka
  obtain ⟨i, hi, hL, htext⟩ := hb.ident hkb
  refine of_designator .field rfl (by decide) ?_
  rw [Tree.map_branch, List.map_cons, List.map_singleton, htext]
  exact ⟨n, _, .field (s := .ofToken .dot) hu rfl hi, hmade.between rfl (.leaf hL)⟩

theorem of_subscript (ha : Writable L a) (hb : Writable L b)
    (hka : a.kind ∈ Slot.designator.kinds) (hkb : b.kind = .expressionList) :
    Writable L (.branch .subscript [a, b]) := by
  obtain ⟨ts, hts, hitems⟩ := hb.subscripts hkb
  obtain ⟨n, u, v, ⟨hu, hmade⟩, hv, hmade'⟩ := (ha.designator hka).both hitems
  refine of_designator .subscript rfl (by decide) ?_
  rw [Tree.map_branch, List.map_cons, List.map_singleton, hts]
  exact ⟨n + 1, _, .subscript (l := .ofToken .lBracket) (r := .ofToken .rBracket)
    (hu.mono (Nat.le_succ n)) rfl rfl hv, hmade.append (.brackets rfl hmade' rfl)⟩

theorem of_dereference (ha : Writable L a) (hka : a.kind ∈ Slot.designator.kinds) :
    Writable L (.branch .dereference [a]) := by
  obtain ⟨n, u, hu, hmade⟩ := ha.designator hka
  refine of_designator .dereference rfl (by decide) ?_
  rw [Tree.map_branch]
  exact ⟨n, _, .dereference (s := .ofToken .deref) hu rfl, hmade.between rfl .nil⟩

theorem of_range (ha : Writable L a) (hb : Writable L b) (hka : a.kind ∈ Slot.expression.kinds)
    (hkb : b.kind ∈ Slot.expression.kinds) : Writable L (.branch .range [a, b]) := by
  obtain ⟨n, u, v, ⟨hu, hmade⟩, hv, hmade'⟩ :=
    (ha.operand hka .expression).both (hb.operand hkb .expression)
  refine of_part (show Kind.range ∉ _ by decide) (fun _ => ?_) nofun nofun nofun
  rw [Tree.map_branch]
  exact ⟨n, _, .range (s := .ofToken .dotDot) hu rfl hv, hmade.between rfl hmade'⟩

/-- A node with a fixed number of parts. -/
theorem of_parts {slots : List Slot} {cs : List Node} (hk : shapeOf k = .parts slots)
    (hslots : List.Forall₂ (fun s c => s.Admits true c.kind) slots cs)
    (hcs : ∀ c ∈ cs, Writable L c) : Writable L (.branch k cs) := by
  cases hop : k.operator? with
  | some t =>
    obtain rfl : slots = [.expression, .expression] := by
      revert hop hk
      cases k <;> rintro ⟨⟩ ⟨⟩ <;> rfl
    obtain _ | ⟨ha, _ | ⟨hb, _ | _⟩⟩ := hslots
    exact of_operator hop (hcs _ (by simp)) (hcs _ (by simp)) ha.mem hb.mem
  | none =>
    cases k with
    | negation | not =>
      cases hk
      obtain _ | ⟨ha, _ | _⟩ := hslots
      exact of_prefix (by decide) (hcs _ (by simp)) ha.mem
    | typeConversion =>
      cases hk
      obtain _ | ⟨ha, _ | ⟨hb, _ | _⟩⟩ := hslots
      exact of_conversion (hcs _ (by simp)) (hcs _ (by simp)) ha.mem hb.mem
    | functionCall =>
      cases hk
      obtain _ | ⟨ha, _ | ⟨hb, _ | _⟩⟩ := hslots
      exact of_call (hcs _ (by simp)) (hcs _ (by simp)) ha.mem (List.mem_singleton.1 hb.mem)
    | field =>
      cases hk
      obtain _ | ⟨ha, _ | ⟨hb, _ | _⟩⟩ := hslots
      exact of_field (hcs _ (by simp)) (hcs _ (by simp)) ha.mem (List.mem_singleton.1 hb.mem)
    | subscript =>
      cases hk
      obtain _ | ⟨ha, _ | ⟨hb, _ | _⟩⟩ := hslots
      exact of_subscript (hcs _ (by simp)) (hcs _ (by simp)) ha.mem (List.mem_singleton.1 hb.mem)
    | dereference =>
      cases hk
      obtain _ | ⟨ha, _ | _⟩ := hslots
      exact of_dereference (hcs _ (by simp)) ha.mem
    | range =>
      cases hk
      obtain _ | ⟨ha, _ | ⟨hb, _ | _⟩⟩ := hslots
      exact of_range (hcs _ (by simp)) (hcs _ (by simp)) ha.mem hb.mem
    | _ => first | exact of_other (by decide) | (cases hop; done) | cases hk

/-- A row of parts. -/
theorem of_row {slot : Slot} {cs : List Node} (hk : shapeOf k = .row slot)
    (hslot : ∀ c ∈ cs, slot.Admits true c.kind) (hname : k = .qualifiedIdent → 2 ≤ cs.length)
    (hsubscripts : k = .expressionList → cs ≠ []) (hcs : ∀ c ∈ cs, Writable L c) :
    Writable L (.branch k cs) := by
  have hvalues (hs : slot = .expression) :
      ∀ t ∈ cs.map (Tree.map Symbol.text), (Phrase.item .values t).CanBeWritten L := by
    subst hs
    exact List.forall_mem_map.2 fun c hc => (hcs c hc).item (hslot c hc).mem .values
  cases k with
  | structuredValue =>
    cases hk
    have hitems : ∀ t ∈ cs.map (Tree.map Symbol.text),
        (Phrase.item .components t).CanBeWritten L :=
      List.forall_mem_map.2 fun c hc => (hcs c hc).component (hslot c hc).mem
    obtain ⟨n, u, hu, hmade⟩ := Phrase.canBeWritten_list hitems
    refine of_bare .structuredValue .atom rfl (by decide) ?_
    rw [Tree.map_branch]
    exact ⟨n + 1, _, .structured (l := .ofToken .lBrace) (r := .ofToken .rBrace) rfl rfl hu,
      .brackets rfl hmade rfl⟩
  | arguments =>
    cases hk
    exact of_part (show Kind.arguments ∉ _ by decide) nofun nofun
      (fun _ => ⟨_, Tree.map_branch .., Phrase.canBeWritten_list (hvalues rfl)⟩) nofun
  | expressionList =>
    cases hk
    have hne : cs.map (Tree.map Symbol.text) ≠ [] := by simpa using hsubscripts rfl
    exact of_part (show Kind.expressionList ∉ _ by decide) nofun
      (fun _ => ⟨_, Tree.map_branch .., Phrase.canBeWritten_items (hvalues rfl) hne⟩) nofun nofun
  | qualifiedIdent =>
    cases hk
    have hparts : ∀ t ∈ cs.map (Tree.map Symbol.text), IsIdentOf L t :=
      List.forall_mem_map.2 fun c hc =>
        (hcs c hc).ident (List.mem_singleton.1 (hslot c hc).mem)
    have hlength : 2 ≤ (cs.map (Tree.map Symbol.text)).length := by simpa using hname rfl
    obtain ⟨u, hu, hmade⟩ := exists_dotted hparts fun hnil => by simp [hnil] at hlength
    refine of_part (show Kind.qualifiedIdent ∉ _ by decide) nofun nofun nofun fun _ =>
      ⟨u, ?_, hmade⟩
    rw [Tree.map_branch]
    exact .qualified hu hlength
  | _ => first | exact of_other (by decide) | cases hk

/-- A leaf with the text of a symbol that becomes such a leaf. -/
theorem of_leaf {s : Symbol} (hs : s.token.terminalKind? = some k) (hL : L s.unplaced) :
    Writable L (.leaf k s) := by
  have hkinds : (k = .ident ∧ s.token ∈ identStart) ∨
      (k ∈ [.wholeValue, .realValue, .characterValue, .quotedValue] ∧
        literalKind? s.token = some k) := by
    revert hs
    cases s.token <;> rintro ⟨⟩ <;> decide
  rcases hkinds with ⟨rfl, hi⟩ | ⟨hk, hliteral⟩
  · have hident : s.unplaced.token ∈ identStart := hi
    exact ⟨fun _ => ⟨.atom, 0, [s.unplaced], .value (.ident hident), .leaf hL⟩,
      fun _ => ⟨0, [s.unplaced], .ident hident, .leaf hL⟩, nofun, nofun, nofun,
      fun _ => ⟨s.unplaced, hident, hL, rfl⟩, nofun⟩
  · refine of_bare k .atom rfl ?_ ⟨0, [s.unplaced], .literal (s := s.unplaced) hliteral, .leaf hL⟩
    revert hk
    clear hliteral hs
    cases k <;> decide

end Writable

/-- What is known of the leaves of a node is known of those of its parts. -/
theorem forall_values_of_mem {P : Entry → Prop} {k : Kind} {cs : List Node}
    (h : ∀ e ∈ (Tree.branch k cs).values, P e) : ∀ c ∈ cs, ∀ e ∈ c.values, P e := by
  rw [Tree.values_branch] at h
  exact fun c hc e he => h e (List.mem_flatMap.2 ⟨c, hc, he⟩)

theorem writable_of_wellShaped {t : Node} (h : WellShaped true t)
    (hleaves : ∀ e ∈ t.values, e.2.token.terminalKind? = some e.1 ∧ L e.2.unplaced)
    (hlists : t.ListsFilled) : Writable L t := by
  induction h with
  | parts hk hslots _ ih =>
    obtain ⟨-, -, hlists⟩ := hlists
    exact .of_parts hk hslots fun c hc =>
      ih c hc (forall_values_of_mem hleaves c hc) (hlists c hc)
  | row hk hslot _ ih =>
    obtain ⟨hname, hsubscripts, hlists⟩ := hlists
    exact .of_row hk hslot hname hsubscripts fun c hc =>
      ih c hc (forall_values_of_mem hleaves c hc) (hlists c hc)
  | @terminal k s hk =>
    obtain ⟨hs, hL⟩ := hleaves (k, s) (by simp)
    exact .of_leaf hs hL

end

/-- Every tree of an expression can be written with the symbols of its leaves and tokens in their
own spelling. -/
theorem IsExpression.canBeWritten {t : Node} (h : IsExpression t) (place : Place) :
    (Phrase.operand place (t.map Symbol.text)).CanBeWritten
      fun s => s ∈ t.values.map (·.2.unplaced) := by
  refine (writable_of_wellShaped h.fits.2 (fun e he => ⟨h.leaves e he, ?_⟩) h.lists).operand
    h.fits.1.mem place
  exact List.mem_map.2 ⟨e, he, rfl⟩

end Modula
