import Modula.Interner

/-!
# Handles and strings

A table gives out a handle for each string, and the string stands at the handle's place. The map and
the vector of a table say the same (`Inverse`): nothing is in the one that is not in the other, and
what is added is added to both. Tables only grow: another string is put behind those that are there.
So a handle that was given out once stands for its string for ever, and the string is found under
this handle for ever.
-/

namespace Modula.Interner

variable {table table' table'' : Interner} {s t : String} {n : Handle}

/-- The map and the vector of a table are inverse to each other: a string has a handle exactly if
it stands at the handle's place. -/
def Inverse (table : Interner) : Prop :=
  ∀ (s : String) (n : Handle), table.map[s]? = some n ↔ table.strings[n.index]? = some s

/-! ## Adding a string -/

theorem intern_of_get?_eq_some (h : table.get? s = some n) : table.intern s = (n, table) := by
  rw [intern, h]

theorem intern_of_get?_eq_none (h : table.get? s = none) :
    table.intern s =
      (⟨table.strings.size⟩,
        ⟨table.map.insert s ⟨table.strings.size⟩, table.strings.push s⟩) := by
  rw [intern, h]

theorem internAll_append (table : Interner) (first later : List String) :
    table.internAll (first ++ later) = (table.internAll first).internAll later :=
  List.foldl_append

/-- A string is found under the handle given out for it. -/
theorem get?_intern (table : Interner) (s : String) :
    (table.intern s).2.get? s = some (table.intern s).1 := by
  cases h : table.get? s with
  | some n => rw [intern_of_get?_eq_some h, h]
  | none => rw [intern_of_get?_eq_none h, get?, Std.HashMap.getElem?_insert_self]

/-- A string that is new to the map and to the vector is added to both. -/
theorem Inverse.insert_push (h : table.Inverse) (hs : table.get? s = none) :
    Inverse ⟨table.map.insert s ⟨table.strings.size⟩, table.strings.push s⟩ := by
  intro t n
  rw [Std.HashMap.getElem?_insert, Array.getElem?_push]
  by_cases hst : s = t
  · subst hst
    have hold : table.strings[n.index]? ≠ some s := by
      rw [Ne, ← h s n, show table.map[s]? = none from hs]
      exact Option.some_ne_none n ∘ Eq.symm
    rw [if_pos (beq_self_eq_true s)]
    split
    · next hn => simp [← hn]
    · next hn =>
      refine iff_of_false (fun heq => hn ?_) hold
      rw [← Option.some.inj heq]
  · rw [if_neg (by simpa using hst), h t n]
    split
    · next hn =>
      rw [Array.getElem?_eq_none (Nat.le_of_eq hn.symm)]
      exact iff_of_false (Option.some_ne_none t ∘ Eq.symm) fun heq => hst (Option.some.inj heq)
    · exact Iff.rfl

/-- Adding a string keeps the map and the vector inverse to each other. -/
theorem Inverse.intern (h : table.Inverse) (s : String) : (table.intern s).2.Inverse := by
  cases hs : table.get? s with
  | some n => rwa [intern_of_get?_eq_some hs]
  | none => rw [intern_of_get?_eq_none hs]; exact h.insert_push hs

theorem Inverse.internAll (h : table.Inverse) (strings : List String) :
    (table.internAll strings).Inverse := by
  induction strings generalizing table with
  | nil => exact h
  | cons s strings ih => exact ih (h.intern s)

theorem inverse_new : new.Inverse := by
  refine Inverse.intern (fun s n => ?_) ""
  simp

theorem strings_new : new.strings = #[""] := by
  have hnone : get? ⟨∅, #[]⟩ "" = none := by simp [get?]
  rw [new, intern_of_get?_eq_none hnone]
  rfl

/-! ## Looking up -/

namespace Inverse

variable (h : table.Inverse)

include h

/-- A string is found under a handle exactly if it stands at the handle's place. -/
theorem get?_eq_some_iff : table.get? s = some n ↔ table.strings[n.index]? = some s := h s n

theorem isSome_get?_iff : (table.get? s).isSome ↔ s ∈ table.strings := by
  rw [Option.isSome_iff_exists, Array.mem_iff_getElem?]
  constructor
  · rintro ⟨n, hn⟩
    exact ⟨n.index, h.get?_eq_some_iff.1 hn⟩
  · rintro ⟨i, hi⟩
    exact ⟨⟨i⟩, h.get?_eq_some_iff.2 hi⟩

/-- The handle of a string stands for that string. -/
theorem lookup_of_get? (hs : table.get? s = some n) : table.lookup n = s := by
  rw [lookup, Array.getD_eq_getD_getElem?, h.get?_eq_some_iff.1 hs, Option.getD_some]

/-- A string of the table has a handle, which stands for it. -/
theorem lookup_get?_of_mem (hs : s ∈ table.strings) :
    (table.get? s).map table.lookup = some s := by
  obtain ⟨n, hn⟩ := Option.isSome_iff_exists.1 (h.isSome_get?_iff.2 hs)
  rw [hn, Option.map_some, h.lookup_of_get? hn]

/-- A string that is new to the table goes to its end. -/
theorem strings_intern (s : String) :
    (table.intern s).2.strings =
      if s ∈ table.strings then table.strings else table.strings.push s := by
  cases hs : table.get? s with
  | some n =>
    rw [intern_of_get?_eq_some hs, if_pos (h.isSome_get?_iff.1 (by rw [hs]; rfl))]
  | none =>
    rw [intern_of_get?_eq_none hs, if_neg]
    rw [← h.isSome_get?_iff, hs]
    exact Bool.false_ne_true

theorem mem_strings_intern : t ∈ (table.intern s).2.strings ↔ t ∈ table.strings ∨ t = s := by
  rw [h.strings_intern]
  split
  · next hs => exact ⟨.inl, by rintro (h | rfl) <;> assumption⟩
  · exact Array.mem_push

/-- A table holds what it held before and all that was added. -/
theorem mem_strings_internAll {strings : List String} :
    t ∈ (table.internAll strings).strings ↔ t ∈ table.strings ∨ t ∈ strings := by
  induction strings generalizing table with
  | nil => simp [Interner.internAll]
  | cons s strings ih =>
    change t ∈ ((table.intern s).2.internAll strings).strings ↔ _
    rw [ih (h.intern s), h.mem_strings_intern, List.mem_cons, or_assoc]

end Inverse

/-! ## Growing -/

/-- The second table has the strings of the first one at their places, and perhaps more. -/
def Extends (table table' : Interner) : Prop := table.strings.toList <+: table'.strings.toList

namespace Extends

theorem refl (table : Interner) : table.Extends table := List.prefix_refl _

theorem trans (h : table.Extends table') (h' : table'.Extends table'') : table.Extends table'' :=
  List.IsPrefix.trans h h'

/-- A string keeps its place. -/
theorem getElem? (h : table.Extends table') {i : Nat} (hs : table.strings[i]? = some s) :
    table'.strings[i]? = some s := by
  rw [← Array.getElem?_toList] at hs ⊢
  obtain ⟨hi, -⟩ := List.getElem?_eq_some_iff.1 hs
  obtain ⟨later, hlater⟩ := h
  rw [← hlater, List.getElem?_append_left hi, hs]

/-- A string that was found is found under the same handle. -/
theorem get? (h : table.Extends table') (hi : table.Inverse) (hi' : table'.Inverse)
    (hs : table.get? s = some n) : table'.get? s = some n :=
  hi'.get?_eq_some_iff.2 (h.getElem? (hi.get?_eq_some_iff.1 hs))

theorem mem (h : table.Extends table') (hs : s ∈ table.strings) : s ∈ table'.strings := by
  rw [Array.mem_def] at hs ⊢
  exact h.subset hs

end Extends

/-- A table grows by the strings that are added. -/
theorem extends_intern (table : Interner) (s : String) : table.Extends (table.intern s).2 := by
  cases hs : table.get? s with
  | some n =>
    rw [intern_of_get?_eq_some hs]
    exact .refl table
  | none =>
    rw [intern_of_get?_eq_none hs, Extends, Array.toList_push]
    exact List.prefix_append _ _

end Modula.Interner
