import Modula.Proofs.ExactReading
import Modula.Proofs.WrittenExpressions

/-!
# Written expressions are read back

The rules of the grammar read a written expression into a tree with its texts. The places of
operands are the levels of the grammar: each has a rule, and an operand at a place may be read as
the start of a longer one at the same place, which is how chains of operators associate to the left.
-/

namespace Modula

open Modula.Parser Modula.Grammar

/-- The leaves of the tree hold symbols with the texts. -/
def HasTexts (t : Tree String) (n : Node) : Prop := n.map Symbol.text = t

theorem HasTexts.map_eq {t : Tree String} {n : Node} (h : HasTexts t n) : n.map Symbol.text = t := h

theorem IsLeaf.hasTexts {k : Kind} {s : Unplaced} {n : Node} (h : IsLeaf k s n) :
    HasTexts (.leaf k s.text) n := by
  obtain ⟨i, rfl, rfl⟩ := h
  rfl

theorem IsLeaf.isEmpty {s : Unplaced} {n : Node} (h : IsLeaf .ident s n) : n.isEmpty = false := by
  obtain ⟨i, -, rfl⟩ := h
  rfl

theorem HasTexts.branch {k : Kind} {ts : List (Tree String)} {ns : List Node}
    (h : ns.map (Tree.map Symbol.text) = ts) : HasTexts (.branch k ts) (.branch k ns) :=
  (Tree.map_branch _ _ _).trans (congrArg _ h)

theorem HasTexts.branch_one {k : Kind} {a : Tree String} {n : Node} (h : HasTexts a n) :
    HasTexts (.branch k [a]) (.branch k [n]) := .branch (congrArg (· :: []) h)

theorem HasTexts.branch_two {k : Kind} {a b : Tree String} {n m : Node} (h : HasTexts a n)
    (h' : HasTexts b m) : HasTexts (.branch k [a, b]) (.branch k [n, m]) := by
  refine .branch ?_
  rw [List.map_cons, List.map_singleton, h.map_eq, h'.map_eq]

theorem HasTexts.isEmpty_eq {t : Tree String} {n : Node} (h : HasTexts t n) :
    n.isEmpty = t.isEmpty := by
  rw [Tree.isEmpty, Tree.isEmpty, ← h.map_eq, Tree.kind_map]

/-- Nodes with the texts were found behind those that were found before, the last first. -/
def Adds (found : List Node) (ts : List (Tree String)) (ns : List Node) : Prop :=
  ns.reverse.map (Tree.map Symbol.text) = found.reverse.map (Tree.map Symbol.text) ++ ts

namespace Adds

variable {found ns : List Node} {ts : List (Tree String)} {t : Tree String} {n : Node}

theorem one (h : HasTexts t n) : Adds found [t] (n :: found) := by
  rw [Adds, List.reverse_cons, List.map_append, List.map_singleton, h.map_eq]

theorem cons (h : HasTexts t n) (hns : Adds (n :: found) ts ns) : Adds found (t :: ts) ns := by
  rw [Adds, hns, one h, List.append_assoc, List.singleton_append]

end Adds

namespace Place

variable (call : Call)

/-- The rule that reads an operand at the place. -/
def rule : Place → Parser Node
  | expression => Grammar.expression call
  | sum => simpleExpression call
  | product => term call
  | unary => simpleTerm call
  | conversion => factor call
  | atom => simpleFactor call

/-- How the rule goes on behind an operand, which may be the start of a longer one. -/
def goOn : Place → Node → Parser Node
  | sum => loop (operatorRound additiveKind? (term call))
  | product => loop (operatorRound multiplicativeKind? (simpleTerm call))
  | expression | unary | conversion | atom => pure

/-- Tokens behind an operand at the place that would belong to it, but not to a longer one. -/
def swallowed : Place → List Token
  | atom => [.dot, .lBracket, .deref, .lParen]
  | conversion | unary | product => [.typeConv, .dot, .lBracket, .deref, .lParen]
  | sum =>
    [.asterisk, .solidus, .kwDiv, .kwMod, .kwAnd,
      .typeConv, .dot, .lBracket, .deref, .lParen]
  | expression =>
    [.equal, .notEqual, .less, .lessOrEqual, .greater, .greaterOrEqual, .identity, .kwIn,
      .plus, .minus, .kwOr, .asterisk, .solidus, .kwDiv, .kwMod, .kwAnd,
      .typeConv, .dot, .lBracket, .deref, .lParen]

/-- The token may stand behind an operand at the place. -/
def Allows (place : Place) (t : Token) : Prop := t ∉ place.swallowed

instance (place : Place) (t : Token) : Decidable (place.Allows t) :=
  inferInstanceAs (Decidable (_ ∉ _))

/-- The next place, which takes more. -/
def looser : Place → Place
  | expression | sum => expression
  | product => sum
  | unary => product
  | conversion => unary
  | atom => conversion

theorem eq_or_rank_le_looser {place place' : Place} (h : place.rank ≤ place'.rank) :
    place = place' ∨ (place.rank ≤ place'.looser.rank ∧ place'.looser.rank < place'.rank) := by
  revert h
  cases place <;> cases place' <;> decide

theorem allows_looser {place : Place} {t : Token} (h : place.looser.Allows t) :
    place.Allows t := by
  have hall : ∀ t ∈ place.swallowed, t ∈ place.looser.swallowed := by cases place <;> decide
  exact fun ht => h (hall t ht)

/-- No operator stands behind a whole expression. -/
theorem kinds_of_allows_expression {t : Token} (h : expression.Allows t) :
    relationKind? t = none ∧ additiveKind? t = none := by
  revert h
  cases t <;> decide

/-- What a relation, a sum or a product starts with is neither a sign nor `NOT`. -/
theorem ne_of_mem_start {t : Token} :
    (t ∈ product.start → t ≠ .minus ∧ t ≠ .plus) ∧ (t ∈ conversion.start → t ≠ .kwNot) := by
  cases t <;> decide

end Place

section

variable (n : Nat) {call : Call}

/-! ## Operators -/

/-- A round that reads an operator and its right operand. -/
theorem reads_operatorRound {kind? : Token → Option Kind} {operand : Parser Node} {k : Kind}
    {a b : Tree String} {left : Node} {s : Unplaced} {v : List Unplaced} {stop : Token → Prop}
    (hs : kind? s.token = some k) (hend : s.token ≠ .endOfFile) (hleft : HasTexts a left)
    (hoperand : Reads operand (HasTexts b) v stop) :
    Reads (operatorRound kind? operand left)
      (fun x => ∃ m, x = .more m ∧ HasTexts (.branch k [a, b]) m) (s :: v) stop := by
  refine .at_token (t := s.token) (.cons rfl) ?_
  rw [hs]
  refine .word hend (hoperand.bind.stopped (fun right hright => ?_) fun _ => id)
  exact .answer _ ⟨_, rfl, hleft.branch_two hright⟩

/-- A round in front of a token that is no operator of the level. -/
theorem ends_operatorRound {kind? : Token → Option Kind} {operand : Parser Node} {P : Node → Prop}
    {left : Node} {stop : Token → Prop} (hleft : P left) (hstop : ∀ t, stop t → kind? t = none) :
    Reads (operatorRound kind? operand left) (fun x => ∃ m, x = .done m ∧ P m) [] stop := by
  refine .token (.nil hstop) fun t ht => ?_
  rw [ht]
  exact .answer (Round.done left) ⟨left, rfl, hleft⟩

/-- An operand is read to its end where no operator of its level comes behind it. -/
theorem ReadsOn.chain_end {kind? : Token → Option Kind} {m operand : Parser Node}
    {P : Node → Prop} {u : List Unplaced} {stop stop' : Token → Prop}
    (h : ReadsOn m (loop (operatorRound kind? operand)) P u stop)
    (hstop : ∀ t, stop' t → stop t ∧ kind? t = none) : Reads m P u stop' :=
  h.stopped (fun _ hleft => .done (ends_operatorRound hleft fun t ht => (hstop t ht).2))
    fun t ht => (hstop t ht).1

/-- An operand with an operator and another operand behind it is a longer operand. -/
theorem ReadsOn.chain {kind? : Token → Option Kind} {m operand : Parser Node} {k : Kind}
    {a b : Tree String} {u v : List Unplaced} {s : Unplaced} {stop : Token → Prop}
    [ho : Composed n operand] (hend : kind? .endOfFile = none) (hs : kind? s.token = some k)
    (h : ReadsOn m (loop (operatorRound kind? operand)) (HasTexts a) u stop) (hstop : stop s.token)
    (hoperand : Reads operand (HasTexts b) v stop) :
    ReadsOn m (loop (operatorRound kind? operand)) (HasTexts (.branch k [a, b])) (u ++ s :: v)
      stop := by
  refine h.trans (fun left hleft => ?_) (.cons hstop)
  refine .more (n := n) (fun _ => inferInstance) (consuming_operatorRound hend ho) ?_
  refine reads_operatorRound hs (fun he => ?_) hleft hoperand
  rw [he, hend] at hs
  cases hs

/-! ## From tighter places to looser ones -/

variable (call) in
/-- The phrase is read as an operand at the place. -/
def ReadsAt (place : Place) (t : Tree String) (u : List Unplaced) : Prop :=
  ReadsOn (place.rule call) (place.goOn call) (HasTexts t) u place.Allows

namespace ReadsAt

variable {t : Tree String} {u : List Unplaced}

theorem term (h : ReadsAt call .product t u) : Reads (term call) (HasTexts t) u Place.sum.Allows :=
  ReadsOn.chain_end h fun t => by
    unfold Place.Allows
    cases t <;> decide

theorem simpleExpression (h : ReadsAt call .sum t u) :
    Reads (simpleExpression call) (HasTexts t) u
      fun t => Place.sum.Allows t ∧ additiveKind? t = none :=
  ReadsOn.chain_end h fun _ => id

/-- An operand at a place is one at the next looser place. -/
theorem looser {place : Place} (h : ReadsAt call place t u) (hu : StartsIn place.start u) :
    ReadsAt call place.looser t u := by
  cases place with
  | expression => exact h
  | sum =>
    refine (h.simpleExpression).bind.stopped (fun left hleft => ?_) fun t ht =>
      ⟨Place.allows_looser ht, (Place.kinds_of_allows_expression ht).2⟩
    refine .token (.nil fun t ht => (Place.kinds_of_allows_expression ht).1) fun t ht => ?_
    rw [ht]
    exact .answer left hleft
  | product =>
    have hsigned : Reads (signedTerm call) (HasTexts t) u Place.sum.Allows := by
      refine .token (.of_startsIn hu fun t => Place.ne_of_mem_start.1) fun t ht => ?_
      split
      · exact absurd rfl ht.1
      · exact absurd rfl ht.2
      · exact h.term
    exact hsigned.bind
  | unary => exact h.bind
  | conversion => exact .ifAt_no (.of_startsIn hu fun t => Place.ne_of_mem_start.2) h
  | atom =>
    refine h.bind.stopped (fun value hvalue => ?_) fun _ => Place.allows_looser
    refine .ifAt_no (.nil ?_) (.answer value hvalue)
    rintro _ ht rfl
    exact ht List.mem_cons_self

/-- An operand at a place is one at every looser place. -/
theorem lift {place place' : Place} (h : ReadsAt call place' t u) (hu : StartsIn place'.start u)
    (hplace : place.rank ≤ place'.rank) : ReadsAt call place t u := by
  rcases Place.eq_or_rank_le_looser hplace with rfl | ⟨hle, hlt⟩
  · exact h
  · exact lift (h.looser hu) (hu.mono (Place.start_subset (Nat.le_of_lt hlt))) hle
termination_by place'.rank

end ReadsAt

/-! ## Operators with their operands -/

section

variable {k : Kind} {a b : Tree String} {u v : List Unplaced} {s : Unplaced}

theorem readsAt_relation (hs : relationKind? s.token = some k) (ha : ReadsAt call .sum a u)
    (hb : ReadsAt call .sum b v) :
    ReadsAt call .expression (.branch k [a, b]) (u ++ s :: v) := by
  have hmiddle : Place.sum.Allows s.token ∧ additiveKind? s.token = none := by
    revert hs
    cases s.token <;> rintro ⟨⟩ <;> decide
  have hend : s.token ≠ .endOfFile := by
    intro h
    rw [h] at hs
    cases hs
  refine ha.simpleExpression.seq (fun left hleft => ?_) (.cons hmiddle)
  refine .at_token (t := s.token) (.cons rfl) ?_
  rw [hs]
  refine .word hend (hb.simpleExpression.bind.stopped (fun right hright => ?_) fun t ht =>
    ⟨Place.allows_looser ht, (Place.kinds_of_allows_expression ht).2⟩)
  exact .answer _ (hleft.branch_two hright)

theorem readsAt_additive [Reliable n call] (hs : additiveKind? s.token = some k)
    (ha : ReadsAt call .sum a u) (hb : ReadsAt call .product b v) :
    ReadsAt call .sum (.branch k [a, b]) (u ++ s :: v) := by
  have hmiddle : Place.sum.Allows s.token := by
    revert hs
    cases s.token <;> rintro ⟨⟩ <;> decide
  exact ReadsOn.chain n rfl hs ha hmiddle hb.term

theorem readsAt_multiplicative [Reliable n call]
    (hs : multiplicativeKind? s.token = some k) (ha : ReadsAt call .product a u)
    (hb : ReadsAt call .unary b v) :
    ReadsAt call .product (.branch k [a, b]) (u ++ s :: v) := by
  have hmiddle : Place.product.Allows s.token := by
    revert hs
    cases s.token <;> rintro ⟨⟩ <;> decide
  exact ReadsOn.chain n rfl hs ha hmiddle hb

theorem readsAt_negation (hs : s.token = .minus) (ha : ReadsAt call .product a u) :
    ReadsAt call .sum (.branch .negation [a]) (s :: u) := by
  have hsigned : Reads (signedTerm call) (HasTexts (.branch .negation [a])) (s :: u)
      Place.sum.Allows := by
    refine .at_token (.cons hs) (.word (hs ▸ by decide) ?_)
    exact ha.term.bind.stopped (fun _ h => .answer _ h.branch_one) fun _ => id
  exact hsigned.bind

theorem readsAt_not (hs : s.token = .kwNot) (ha : ReadsAt call .conversion a u) :
    ReadsAt call .unary (.branch .not [a]) (s :: u) := by
  refine .ifAt_yes (.cons hs) (.word (hs ▸ by decide) ?_)
  exact ReadsOn.stopped (.bind ha) (fun _ h => .answer _ h.branch_one) fun _ => id

/-! ## Names -/

/-- The parts of a qualified identifier behind the first one. -/
theorem reads_qualidentRounds {r : TokenSet} {ts : List (Tree String)} (h : Dotted ts u)
    (hs : s.token = .dot) (found : List Node) :
    Reads (loop (qualidentRound r) found) (Adds found ts) (s :: u) (· ≠ .dot) := by
  have hmore {i s : Unplaced} (hi : i.token ∈ identStart) (hs : s.token = .dot)
      (found : List Node) : ReadsOn (loop (qualidentRound r) found) (loop (qualidentRound r))
        (fun ns => ∃ part, ns = part :: found ∧ HasTexts (.leaf .ident i.text) part) [s, i]
        fun _ => True := by
    refine .more (n := 0) (fun _ => inferInstance) (consuming_qualidentRound r) ?_
    refine .ifAt_yes (.cons hs) (.word (hs ▸ by decide) ?_)
    refine (ReadsOn.ident hi r).bind.stopped (fun part hpart => ?_) fun _ => id
    rw [if_neg (by simp [hpart.isEmpty])]
    exact .answer _ ⟨_, rfl, part, rfl, hpart.hasTexts⟩
  induction h generalizing s found with
  | last hi =>
    refine (hmore hi hs found).stopped ?_ fun _ _ => trivial
    rintro _ ⟨part, rfl, hpart⟩
    exact .done (.ifAt_no (.nil fun _ => id) (.answer _ ⟨_, rfl, .one hpart⟩))
  | more hi hs' _ ih =>
    refine (hmore hi hs found).trans ?_ (.any _)
    rintro _ ⟨part, rfl, hpart⟩
    exact (ih hs' _).mono (fun ns => .cons hpart) fun _ => id

theorem reads_qualident {r : TokenSet} (h : Named a u) :
    Reads (qualident r) (HasTexts a) u (· ≠ .dot) := by
  cases h with
  | simple hi =>
    refine (ReadsOn.ident hi r).bind.stopped (fun first hfirst => ?_) fun _ => id
    rw [if_neg (by simp [hfirst.isEmpty])]
    exact .ifAt_no (.nil fun _ => id) (.answer _ hfirst.hasTexts)
  | qualified h hlength =>
    cases h with
    | last => exact absurd hlength (by simp)
    | more hi hs h =>
      refine (ReadsOn.ident hi r).seq (fun first hfirst => ?_) (.any _)
      rw [if_neg (by simp [hfirst.isEmpty])]
      refine .ifAt_yes (.cons hs) ?_
      refine (reads_qualidentRounds h hs _).bind.stopped (fun ns hns => ?_) fun _ => id
      exact .answer _ (.branch (hns.cons hfirst.hasTexts))

theorem readsAt_conversion (hs : s.token = .typeConv) (ha : ReadsAt call .atom a u)
    (hb : Named b v) :
    ReadsAt call .conversion (.branch .typeConversion [a, b]) (u ++ s :: v) := by
  have hmiddle : Place.atom.Allows s.token := by
    rw [hs]
    decide
  refine ReadsOn.seq ha (fun value hvalue => ?_) (.cons hmiddle)
  refine .ifAt_yes (.cons hs) (.word (hs ▸ by decide) ?_)
  refine (reads_qualident hb).bind.stopped (fun target htarget => ?_) ?_
  · exact .answer _ (hvalue.branch_two htarget)
  · rintro _ ht rfl
    exact ht (by decide)

/-! ## Lists -/

/-- What may stand behind a thing of a list. -/
def EndsItem (t : Token) : Prop := t ∈ [.comma, .rParen, .rBracket, .rBrace]

/-- What may stand behind a list. -/
def EndsList (t : Token) : Prop := t ∈ [.rParen, .rBracket, .rBrace]

instance (t : Token) : Decidable (EndsItem t) := inferInstanceAs (Decidable (_ ∈ _))

instance (t : Token) : Decidable (EndsList t) := inferInstanceAs (Decidable (_ ∈ _))

theorem EndsList.endsItem {t : Token} (h : EndsList t) : EndsItem t := List.mem_cons_of_mem _ h

theorem EndsItem.allows {t : Token} (h : EndsItem t) :
    Place.expression.Allows t ∧ t ≠ .dotDot := by
  revert h
  unfold EndsItem
  cases t <;> decide

/-- What is read of a list behind what was found of it, the last first. -/
def ReadsItems (item : Parser Node) (ts : List (Tree String)) (u : List Unplaced) : Prop :=
  ∀ found, Reads (loop (separatedRound .comma item) found) (Adds found ts) u EndsList

/-- What is read of a list that may be empty, between brackets. -/
def ReadsList (item : Parser Node) (ts : List (Tree String)) (u : List Unplaced) : Prop :=
  ∀ close, close = .rParen ∨ close = .rBrace →
    Reads (ifAt close (return []) (separated .comma item))
      (fun ns => ns.map (Tree.map Symbol.text) = ts) u (· = close)

theorem readsList_nil (item : Parser Node) : ReadsList item [] [] :=
  fun _ _ => .ifAt_yes (.nil fun _ => id) (.answer [] rfl)

section

variable {item : Parser Node} {t : Tree String} {ts : List (Tree String)}

theorem readsItems_last (h : Reads item (HasTexts t) u EndsItem) : ReadsItems item [t] u := by
  refine fun found => .done ?_
  refine h.bind.stopped (fun m hm => ?_) fun _ => EndsList.endsItem
  refine .ifAt_no (.nil ?_) (.answer _ ⟨_, rfl, .one hm⟩)
  rintro _ ht rfl
  exact absurd ht (by decide)

theorem readsItems_more [hi : Composed n item] (h : Reads item (HasTexts t) u EndsItem)
    (hs : s.token = .comma) (hts : ReadsItems item ts v) :
    ReadsItems item (t :: ts) (u ++ s :: v) := by
  intro found
  have hround : ReadsOn (loop (separatedRound .comma item) found)
      (loop (separatedRound .comma item)) (fun ns => ∃ m, ns = m :: found ∧ HasTexts t m)
      (u ++ [s]) fun _ => True := by
    refine .more (n := n) (fun _ => inferInstance) (consuming_separatedRound (by decide) hi) ?_
    refine h.seq (fun m hm => ?_) (.cons (by rw [hs]; decide))
    exact .ifAt_yes (.cons hs) (.word (hs ▸ by decide) (.answer _ ⟨_, rfl, m, rfl, hm⟩))
  rw [List.append_cons u]
  refine hround.trans ?_ (.any _)
  rintro _ ⟨m, rfl, hm⟩
  exact (hts (m :: found)).mono (fun ns => .cons hm) fun _ => id

theorem ReadsItems.separated (h : ReadsItems item ts u) :
    Reads (separated .comma item) (fun ns => ns.map (Tree.map Symbol.text) = ts) u EndsList := by
  rw [separated_eq]
  exact (h []).map fun _ => id

/-- A list of something does not start with the bracket that closes it. -/
theorem ReadsItems.list (h : ReadsItems item ts u) (hu : StartsIn Place.expression.start u) :
    ReadsList item ts u := by
  intro close hclose
  refine .ifAt_no (.of_startsIn hu ?_) (h.separated.mono (fun _ => id) ?_)
  · rcases hclose with rfl | rfl <;> rintro _ ht rfl <;> exact absurd ht (by decide)
  · rcases hclose with rfl | rfl <;> rintro _ rfl <;> decide

end

/-- The rule for one thing of a list. -/
def Listing.rule (call : Call) : Listing → Parser Node
  | values => call .expression
  | components => valueComponent call

instance [Reliable n call] (sort : Listing) : Composed n (sort.rule call) := by
  cases sort <;> unfold Listing.rule <;> infer_instance

/-- One expression is a thing of either sort. -/
theorem reads_single (h : Reads (call .expression) (HasTexts a) u Place.expression.Allows)
    (sort : Listing) : Reads (sort.rule call) (HasTexts a) u EndsItem := by
  have hitem : Reads (call .expression) (HasTexts a) u EndsItem :=
    h.mono (fun _ => id) fun _ ht => ht.allows.1
  cases sort with
  | values => exact hitem
  | components =>
    refine hitem.bind.stopped (fun low hlow => ?_) fun _ => id
    exact .ifAt_no (.nil fun _ ht => ht.allows.2) (.answer low hlow)

theorem reads_range (ha : Reads (call .expression) (HasTexts a) u Place.expression.Allows)
    (hs : s.token = .dotDot)
    (hb : Reads (call .expression) (HasTexts b) v Place.expression.Allows) :
    Reads (valueComponent call) (HasTexts (.branch .range [a, b])) (u ++ s :: v) EndsItem := by
  refine ha.seq (fun low hlow => ?_) (.cons (by rw [hs]; decide))
  refine .ifAt_yes (.cons hs) (.word (hs ▸ by decide) ?_)
  refine hb.bind.stopped (fun high hhigh => ?_) fun _ ht => ht.allows.1
  exact .answer _ (hlow.branch_two hhigh)

end

/-! ## Factors -/

section

variable {k : Kind} {t d : Tree String} {ts : List (Tree String)} {u v : List Unplaced}
  {s l r : Unplaced}

theorem readsAt_literal (hs : literalKind? s.token = some k) :
    ReadsAt call .atom (.leaf k s.text) [s] := by
  have hend : s.token ≠ .endOfFile := by
    intro h
    rw [h] at hs
    cases hs
  refine .at_token (t := s.token) (.cons rfl) ?_
  rw [hs]
  exact (ReadsOn.leaf k hend).mono (fun _ => IsLeaf.hasTexts) fun _ => id

theorem readsAt_parenthesized (hl : l.token = .lParen) (hr : r.token = .rParen)
    (h : Reads (call .expression) (HasTexts t) u Place.expression.Allows) :
    ReadsAt call .atom t (l :: (u ++ [r])) := by
  refine .at_token (.cons hl) (.word (hl ▸ by decide) ?_)
  refine h.seq (fun inner hinner => ?_) (.cons (by rw [hr]; decide))
  exact .expect_seq hr (by decide) _ (.answer inner hinner)

theorem readsAt_structured (hl : l.token = .lBrace) (hr : r.token = .rBrace)
    (h : ReadsList (valueComponent call) ts u) :
    ReadsAt call .atom (.branch .structuredValue ts) (l :: (u ++ [r])) := by
  refine .at_token (.cons hl) (.word (hl ▸ by decide) ?_)
  refine (h .rBrace (.inr rfl)).seq (fun ns hns => ?_) (.cons hr)
  exact .expect_seq hr (by decide) _ (.answer _ (.branch hns))

/-! ### Designators -/

variable (call) in
/-- The phrase is read as a designator, which may be the start of a longer one. -/
def ReadsDesignator (t : Tree String) (u : List Unplaced) : Prop :=
  ReadsOn (designator call) (loop (selectorRound call)) (HasTexts t) u fun _ => True

theorem readsDesignator_ident (hs : s.token ∈ identStart) :
    ReadsDesignator call (.leaf .ident s.text) [s] :=
  ReadsOn.bind ((ReadsOn.ident hs expressionFollow).mono (fun _ => IsLeaf.hasTexts) fun _ => id)

section

variable [Reliable n call]

include n

/-- A designator with another selector is a longer one. -/
theorem ReadsDesignator.select {t' : Tree String} (h : ReadsDesignator call t u)
    (hround : ∀ m, HasTexts t m → Reads (selectorRound call m)
      (fun x => ∃ m', x = .more m' ∧ HasTexts t' m') v fun _ => True) :
    ReadsDesignator call t' (u ++ v) :=
  h.trans (fun m hm => .more (n := n) (fun _ => inferInstance) (consuming_selectorRound n)
    (hround m hm)) (.any v)

theorem ReadsDesignator.field (h : ReadsDesignator call d u) (hs : s.token = .dot)
    (hr : r.token ∈ identStart) :
    ReadsDesignator call (.branch .field [d, .leaf .ident r.text]) (u ++ [s, r]) := by
  refine h.select n fun m hm => .at_token (.cons hs) (.word (hs ▸ by decide) ?_)
  refine (ReadsOn.ident hr _).bind.stopped (fun part hpart => ?_) fun _ => id
  exact .answer _ ⟨_, rfl, hm.branch_two hpart.hasTexts⟩

theorem ReadsDesignator.dereference (h : ReadsDesignator call d u) (hs : s.token = .deref) :
    ReadsDesignator call (.branch .dereference [d]) (u ++ [s]) :=
  h.select n fun _ hm => .at_token (.cons hs)
    (.word (hs ▸ by decide) (.answer _ ⟨_, rfl, hm.branch_one⟩))

theorem ReadsDesignator.subscript (h : ReadsDesignator call d u) (hl : l.token = .lBracket)
    (hr : r.token = .rBracket) (hts : ReadsItems (call .expression) ts v) :
    ReadsDesignator call (.branch .subscript [d, .branch .expressionList ts])
      (u ++ l :: (v ++ [r])) := by
  have hlist : Reads (expressionList call) (HasTexts (.branch .expressionList ts)) v EndsList :=
    hts.separated.map fun ns hns => .branch hns
  refine h.select n fun m hm => .at_token (.cons hl) (.word (hl ▸ by decide) ?_)
  refine hlist.seq (fun list hlist => ?_) (.cons (by rw [hr]; decide))
  exact .expect_seq hr (by decide) _ (.answer _ ⟨_, rfl, hm.branch_two hlist⟩)

end

/-- A designator is read to its end where no selector comes behind it. -/
theorem ReadsDesignator.reads (h : ReadsDesignator call t u) :
    Reads (designator call) (HasTexts t) u fun t => t ∉ [.dot, .lBracket, .deref] := by
  refine h.stopped (fun m hm => ?_) fun _ _ => trivial
  refine .done ?_
  refine .token (.nil fun _ => id) fun t ht => ?_
  split
  · exact absurd (by decide) ht
  · exact absurd (by decide) ht
  · exact absurd (by decide) ht
  · exact .answer _ ⟨m, rfl, hm⟩

/-- A factor that starts with an identifier. -/
theorem readsAt_of_ident (hu : StartsIn identStart u)
    (h : Reads (designatorOrCall call) (HasTexts t) u Place.atom.Allows) :
    ReadsAt call .atom t u := by
  refine .token (.of_startsIn hu fun _ => id) fun t ht => ?_
  have hother : literalKind? t = none ∧ t ≠ .lBrace ∧ t ≠ .lParen := by
    revert ht
    cases t <;> decide
  have hident : identStart.contains t = true := ht
  rw [hother.1, if_neg hother.2.1, if_neg hother.2.2, if_pos hident]
  exact h

theorem ReadsDesignator.value (h : ReadsDesignator call t u) (hu : StartsIn identStart u) :
    ReadsAt call .atom t u := by
  have hselectors : ∀ t ∈ [.dot, .lBracket, .deref], t ∈ Place.atom.swallowed := by decide
  refine readsAt_of_ident hu (h.reads.bind.stopped (fun m hm => ?_)
    fun t ht hmem => ht (hselectors t hmem))
  refine .ifAt_no (.nil ?_) (.answer m hm)
  rintro _ ht rfl
  exact ht (by decide)

theorem ReadsDesignator.called (h : ReadsDesignator call d u) (hu : StartsIn identStart u)
    (hl : l.token = .lParen) (hr : r.token = .rParen) (hts : ReadsList (call .expression) ts v) :
    ReadsAt call .atom (.branch .functionCall [d, .branch .arguments ts])
      (u ++ l :: (v ++ [r])) := by
  have hparameters : Reads (actualParameters call) (HasTexts (.branch .arguments ts))
      (l :: (v ++ [r])) Place.atom.Allows := by
    refine .word (hl ▸ by decide) ((hts .rParen (.inl rfl)).seq (fun ns hns => ?_) (.cons hr))
    exact .expect_seq hr (by decide) _ (.answer _ (.branch hns))
  refine readsAt_of_ident (hu.append _)
    (h.reads.seq (fun m hm => ?_) (.cons (by rw [hl]; decide)))
  refine .ifAt_yes (.cons hl) (hparameters.bind.stopped (fun list hlist => ?_) fun _ => id)
  exact .answer _ (hm.branch_two hlist)

end

end

/-! ## All phrases -/

/-- The phrase is read by its rule, where so many levels may still be opened in it. -/
def Phrase.IsRead (o : ParseOptions) (levels : Nat) : Phrase → List Unplaced → Prop
  | operand place t | bare place t => ReadsAt (nested o levels) place t
  | designator t => ReadsDesignator (nested o levels) t
  | item sort t => fun u => Reads (sort.rule (nested o (levels + 1))) (HasTexts t) u EndsItem
  | items sort ts => ReadsItems (sort.rule (nested o (levels + 1))) ts
  | list sort ts => ReadsList (sort.rule (nested o (levels + 1))) ts

/-- A phrase is read by its rule, if its brackets are not nested too deep. -/
theorem Written.isRead {o : ParseOptions} {n levels : Nat} {φ : Phrase} {u : List Unplaced}
    (h : Written n φ u) (hn : n ≤ levels) : φ.IsRead o levels u := by
  induction h generalizing levels with
  | @enclosed n place t u l r hl hr h ih =>
    obtain ⟨levels, rfl⟩ := Nat.exists_eq_succ_of_ne_zero (Nat.ne_zero_of_lt hn)
    have hatom : ReadsAt (nested o (levels + 1)) .atom t (l :: (u ++ [r])) :=
      readsAt_parenthesized hl hr (ih (Nat.le_of_succ_le_succ hn))
    exact hatom.lift ⟨l, _, rfl, hl ▸ by decide⟩ (by cases place <;> decide)
  | plain hplace h ih => exact ReadsAt.lift (ih hn) (h.startsIn nofun) hplace
  | relation hs _ _ iha ihb => exact readsAt_relation hs (iha hn) (ihb hn)
  | additive hs _ _ iha ihb => exact readsAt_additive o.maxNesting hs (iha hn) (ihb hn)
  | multiplicative hs _ _ iha ihb =>
    exact readsAt_multiplicative o.maxNesting hs (iha hn) (ihb hn)
  | negation hs _ ih => exact readsAt_negation hs (ih hn)
  | not hs _ ih => exact readsAt_not hs (ih hn)
  | conversion hs _ hb ih => exact readsAt_conversion hs (ih hn) hb
  | literal hs => exact readsAt_literal hs
  | structured hl hr _ ih =>
    obtain ⟨levels, rfl⟩ := Nat.exists_eq_succ_of_ne_zero (Nat.ne_zero_of_lt hn)
    exact readsAt_structured hl hr (ih (Nat.le_of_succ_le_succ hn))
  | value h ih => exact ReadsDesignator.value (ih hn) (h.startsIn nofun)
  | call hd hl hr _ ihd ih =>
    obtain ⟨levels, rfl⟩ := Nat.exists_eq_succ_of_ne_zero (Nat.ne_zero_of_lt hn)
    exact ReadsDesignator.called (ihd hn) (hd.startsIn nofun) hl hr
      (ih (Nat.le_of_succ_le_succ hn))
  | ident hi => exact readsDesignator_ident hi
  | field _ hs hi ih => exact ReadsDesignator.field o.maxNesting (ih hn) hs hi
  | subscript _ hl hr _ ihd ih =>
    obtain ⟨levels, rfl⟩ := Nat.exists_eq_succ_of_ne_zero (Nat.ne_zero_of_lt hn)
    exact ReadsDesignator.subscript o.maxNesting (ihd hn) hl hr (ih (Nat.le_of_succ_le_succ hn))
  | dereference _ hs ih => exact ReadsDesignator.dereference o.maxNesting (ih hn) hs
  | nothing => exact readsList_nil _
  | something h ih => exact ReadsItems.list (ih hn) (h.startsIn nofun)
  | last _ ih => exact readsItems_last (ih hn)
  | more _ hs _ iht ihts => exact readsItems_more o.maxNesting (iht hn) hs (ihts hn)
  | single _ ih =>
    have hvalue : Reads (nested o (levels + 1) .expression) (HasTexts _) _ _ := ih hn
    exact reads_single hvalue _
  | range _ hs _ iha ihb => exact reads_range (iha hn) hs (ihb hn)

end Modula
