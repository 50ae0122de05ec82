import Modula.Grammar.Sequence

/-!
# The values of a tree

The values of a tree, each with the kind of its node, in preorder. The grammar hangs symbols into
its trees: those whose text is not settled by their token. What kind of node such a symbol becomes
is settled by the token.

A symbol that stands directly behind `END` is an identifier that closes a unit or a procedure, and
becomes no part of the tree. So of a row of symbols those values are kept that do not stand behind
`END`.
-/

namespace Modula

namespace Tree

variable {α : Type}

mutual

/-- The values of the nodes in preorder, each with the kind of its node. -/
def values : Tree α → List (Kind × α)
  | node k v cs => (v.map (k, ·)).toList ++ valuesAll cs

/-- The values of a row of trees. -/
def valuesAll : List (Tree α) → List (Kind × α)
  | [] => []
  | t :: ts => t.values ++ valuesAll ts

end

theorem valuesAll_eq_flatMap (ts : List (Tree α)) : valuesAll ts = ts.flatMap values := by
  induction ts with
  | nil => rfl
  | cons t ts ih => rw [valuesAll, ih, List.flatMap_cons]

@[simp]
theorem values_branch (k : Kind) (cs : List (Tree α)) :
    (branch k cs).values = cs.flatMap values := by
  rw [branch, values, valuesAll_eq_flatMap]
  rfl

@[simp]
theorem values_leaf (k : Kind) (v : α) : (leaf k v).values = [(k, v)] := rfl

end Tree

/-! ## Symbols as values -/

/-- The kind of node that a symbol with the token becomes, if it becomes one. -/
def Token.terminalKind? : Token → Option Kind
  | .stdIdent | .foreignIdent | .malformedIdent => some .ident
  | .wholeNumber | .malformedNumber => some .wholeValue
  | .realNumber => some .realValue
  | .charCode => some .characterValue
  | .quotedString | .malformedString => some .quotedValue
  | _ => none

/-- Of the symbols that the grammar sees, those with a lexeme become nodes. -/
theorem Token.hasLexeme_eq_isSome_terminalKind? {t : Token} (h : t.isTrivia = false) :
    t.hasLexeme = t.terminalKind?.isSome := by
  revert h
  cases t <;> decide

theorem Token.ne_of_terminalKind? {t : Token} {k : Kind} (h : t.terminalKind? = some k) :
    (k == .empty) = false ∧ t ≠ .endOfFile ∧ t ≠ .kwEnd := by
  revert h
  cases t <;> rintro ⟨⟩ <;> decide

/-- A value of a tree. -/
abbrev Entry := Kind × Symbol

/-- The value that a symbol becomes, if it becomes one. -/
def Symbol.entry? (s : Symbol) : Option Entry := s.token.terminalKind?.map (·, s)

/-- The values that a row of symbols becomes. -/
def entries (w : List Symbol) : List Entry := w.filterMap Symbol.entry?

theorem entries_append (v w : List Symbol) : entries (v ++ w) = entries v ++ entries w :=
  List.filterMap_append

/-- Of the symbols that the grammar sees, those with a lexeme are values. -/
theorem map_snd_entries {w : List Symbol} (h : ∀ s ∈ w, s.token.isTrivia = false) :
    (entries w).map Prod.snd = w.filter (·.token.hasLexeme) := by
  induction w with
  | nil => rfl
  | cons s w ih =>
    obtain ⟨hs, hw⟩ := List.forall_mem_cons.1 h
    have hlex := Token.hasLexeme_eq_isSome_terminalKind? hs
    rw [List.filter_cons, ← ih hw, hlex, entries, List.filterMap_cons, Symbol.entry?]
    cases s.token.terminalKind? <;> rfl

theorem eq_terminalKind?_of_mem_entries {e : Entry} {w : List Symbol} (h : e ∈ entries w) :
    e.2 ∈ w ∧ e.2.token.terminalKind? = some e.1 := by
  obtain ⟨s, hs, he⟩ := List.mem_filterMap.1 h
  obtain ⟨k, hk, rfl⟩ := Option.map_eq_some_iff.1 he
  exact ⟨hs, hk⟩

/-- The last symbol of a row is `END`, given whether the symbol in front of the row is. -/
def behindEnd (b : Bool) (w : List Symbol) : Bool := w.foldl (fun _ s => s.token == .kwEnd) b

theorem behindEnd_append (b : Bool) (v w : List Symbol) :
    behindEnd b (v ++ w) = behindEnd (behindEnd b v) w := List.foldl_append

/-- The symbols of a row that do not stand behind `END`, given whether the first one does. -/
def notBehindEnd (b : Bool) : List Symbol → List Symbol
  | [] => []
  | s :: w => (if b then [] else [s]) ++ notBehindEnd (s.token == .kwEnd) w

theorem notBehindEnd_append (b : Bool) (v w : List Symbol) :
    notBehindEnd b (v ++ w) = notBehindEnd b v ++ notBehindEnd (behindEnd b v) w := by
  induction v generalizing b with
  | nil => rfl
  | cons s v ih =>
    rw [List.cons_append, notBehindEnd, ih, notBehindEnd, List.append_assoc]
    rfl

theorem sublist_notBehindEnd (b : Bool) (w : List Symbol) : (notBehindEnd b w).Sublist w := by
  induction w generalizing b with
  | nil => exact .slnil
  | cons s w ih =>
    rw [notBehindEnd]
    cases b with
    | true => exact (ih _).cons s
    | false => exact (ih _).cons_cons s

/-- The end of the source is no value. -/
theorem entries_notBehindEnd_end (b : Bool) {s : Symbol} (h : s.token = .endOfFile) :
    entries (notBehindEnd b [s]) = [] := by
  have hnone : s.entry? = none := by rw [Symbol.entry?, h]; rfl
  cases b with
  | true => rfl
  | false => simp [notBehindEnd, entries, hnone]

/-! ## Rows of trees with their values -/

/-- The row of trees has these values, and there are none in its placeholders. -/
structure Carry (ts : List Node) (u : List Entry) : Prop where
  values : ts.flatMap Tree.values = u
  hollow : ∀ t ∈ ts, t.isEmpty = true → t.values = []

namespace Carry

variable {ts ts' : List Node} {u v : List Entry} {k : Kind}

theorem nil : Carry [] [] := ⟨rfl, by simp⟩

theorem append (h : Carry ts u) (h' : Carry ts' v) : Carry (ts ++ ts') (u ++ v) := by
  refine ⟨by rw [List.flatMap_append, h.values, h'.values], fun t ht => ?_⟩
  rcases List.mem_append.1 ht with ht | ht
  · exact h.hollow t ht
  · exact h'.hollow t ht

theorem of_ne {t : Node} (ht : t.isEmpty = false) (hv : t.values = u) : Carry [t] u := by
  refine ⟨by simpa using hv, fun s hs he => ?_⟩
  rw [List.mem_singleton.1 hs, ht] at he
  cases he

/-- A node has the values of its parts. -/
theorem branch (hk : (k == .empty) = false) (h : Carry ts u) : Carry [.branch k ts] u :=
  of_ne hk (by rw [Tree.values_branch, h.values])

theorem leaf (hk : (k == .empty) = false) (s : Symbol) : Carry [.leaf k s] [(k, s)] :=
  of_ne hk rfl

theorem bare (k : Kind) : Carry [.bare k] [] :=
  ⟨rfl, fun t ht _ => by rw [List.mem_singleton.1 ht]; rfl⟩

theorem empty : Carry [.empty] [] := bare .empty

/-- Nothing is lost with a placeholder. -/
theorem of_isEmpty {t : Node} (h : Carry [t] u) (ht : t.isEmpty = true) : u = [] := by
  have hv := h.hollow t (List.mem_singleton_self t) ht
  rw [← h.values, List.flatMap_cons, hv]
  rfl

/-- Placeholders can be left out. -/
theorem filter (h : Carry ts u) : Carry (ts.filter (!·.isEmpty)) u := by
  obtain ⟨rfl, hh⟩ := h
  refine ⟨?_, fun t ht => hh t (List.mem_filter.1 ht).1⟩
  induction ts with
  | nil => rfl
  | cons t ts ih =>
    obtain ⟨ht, hts⟩ := List.forall_mem_cons.1 hh
    rw [List.filter_cons]
    cases he : t.isEmpty with
    | true => simp [ih hts, ht he]
    | false => simp [ih hts]

theorem listNode (hk : (k == .empty) = false) (h : Carry ts u) :
    Carry [Grammar.listNode k ts] u := by
  unfold Grammar.listNode
  split
  · next hnil =>
    rw [List.isEmpty_iff.1 hnil] at h
    rw [← h.values]
    exact empty
  · exact h.branch hk

end Carry

end Modula
