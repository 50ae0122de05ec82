import Mathlib.Data.String.Basic
import Modula.Token

/-!
# Looking up reserved words

The table of reserved words is sorted by spelling, and has each reserved word with its name. So
halving the table finds a word exactly if it is the name of a reserved word, and finds the token of
this name.
-/

namespace Modula.Token

variable {words : Array (String × Token)} {text : String} {low high : Nat} {t : Token}

/-- The words of a table are sorted by spelling, and no word is there twice. -/
def Sorted (words : Array (String × Token)) : Prop :=
  words.toList.Pairwise fun a b => a.1 < b.1

/-- What is found by halving is in the table. -/
theorem mem_of_findBetween (h : findBetween words text low high = some t) :
    (text, t) ∈ words := by
  fun_induction findBetween words text low high with
  | case1 low high hlt middle hnone => cases h
  | case2 low high hlt middle word u hword heq =>
    cases h
    rw [← compare_eq_iff_eq.1 heq]
    exact Array.mem_of_getElem? hword
  | case3 low high hlt middle word u hword hless ih => exact ih h
  | case4 low high hlt middle word u hword hgreater ih => exact ih h
  | case5 low high hge => cases h

theorem Sorted.lt_of_getElem? (hs : Sorted words) {i j : Nat} {a b : String × Token}
    (ha : words[i]? = some a) (hb : words[j]? = some b) (h : a.1 < b.1) : i < j := by
  obtain ⟨hi, rfl⟩ := Array.getElem?_eq_some_iff.1 ha
  obtain ⟨hj, rfl⟩ := Array.getElem?_eq_some_iff.1 hb
  rcases Nat.lt_trichotomy i j with hij | rfl | hji
  · exact hij
  · exact absurd h (lt_irrefl _)
  · exact absurd h (List.pairwise_iff_getElem.1 hs j i hj hi hji).asymm

theorem Sorted.eq_of_getElem? (hs : Sorted words) {i j : Nat} {a b : String × Token}
    (ha : words[i]? = some a) (hb : words[j]? = some b) (h : a.1 = b.1) : a = b := by
  obtain ⟨hi, rfl⟩ := Array.getElem?_eq_some_iff.1 ha
  obtain ⟨hj, rfl⟩ := Array.getElem?_eq_some_iff.1 hb
  rcases Nat.lt_trichotomy i j with hij | rfl | hji
  · exact absurd h (List.pairwise_iff_getElem.1 hs i j hi hj hij).ne
  · rfl
  · exact absurd h (List.pairwise_iff_getElem.1 hs j i hj hi hji).ne'

/-- Halving a sorted table finds every word that is in it, at its place. -/
theorem Sorted.findBetween_eq (hs : Sorted words) {i : Nat} (hi : words[i]? = some (text, t))
    (hlow : low ≤ i) (hhigh : i < high) (hsize : high ≤ words.size) :
    findBetween words text low high = some t := by
  fun_induction findBetween words text low high with
  | case1 low high hlt middle hnone =>
    have hmiddle : middle < high := by omega
    have := Array.getElem?_eq_none_iff.1 hnone
    omega
  | case2 low high hlt middle word u hword heq =>
    have hsame := hs.eq_of_getElem? hword hi (compare_eq_iff_eq.1 heq)
    exact congrArg some (Prod.mk.inj hsame).2
  | case3 low high hlt middle word u hword hless ih =>
    exact ih (hs.lt_of_getElem? hword hi (compare_lt_iff_lt.1 hless)) hhigh hsize
  | case4 low high hlt middle word u hword hgreater ih =>
    have hmiddle : middle < high := by omega
    exact ih hlow (hs.lt_of_getElem? hi hword (compare_gt_iff_gt.1 hgreater)) (by omega)
  | case5 low high hge => exact absurd (Nat.lt_of_le_of_lt hlow hhigh) hge

/-! ## The table -/

theorem sorted_reservedWords : Sorted reservedWords := by
  unfold Sorted
  decide +kernel

/-- The table has the reserved words, each with its name. -/
theorem mem_reservedWords_iff :
    (text, t) ∈ reservedWords ↔ t.isReservedWord = true ∧ t.name = text := by
  have hrows : ∀ row ∈ reservedWords, row.2.isReservedWord = true ∧ row.2.name = row.1 := by
    decide +kernel
  have hwords : ∀ t : Token, t.isReservedWord = true → (t.name, t) ∈ reservedWords := by
    decide +kernel
  constructor
  · exact hrows _
  · rintro ⟨ht, rfl⟩
    exact hwords t ht

/-- A text is looked up in the table of reserved words as it is found among the names of the
reserved words. -/
theorem reservedWord?_eq_some_iff :
    reservedWord? text = some t ↔ t.isReservedWord = true ∧ t.name = text := by
  rw [← mem_reservedWords_iff]
  refine ⟨mem_of_findBetween, fun h => ?_⟩
  obtain ⟨i, hi⟩ := Array.mem_iff_getElem?.1 h
  obtain ⟨hlt, -⟩ := Array.getElem?_eq_some_iff.1 hi
  exact sorted_reservedWords.findBetween_eq hi (Nat.zero_le i) hlt (Nat.le_refl _)

end Modula.Token
