import Mathlib.Data.List.Induction
import Modula.Proofs.StringTables

/-!
# Calls on a table

A new table is asked for handles in any order, by calls that add a string if need be and by calls
that only look it up. Every call keeps the map and the vector of the table inverse to each other
(`Inverse.serve`), and so do any calls. The strings that have been added stand in the table in the
order of their first arrival behind the empty string (`strings_after`), whatever was looked up
between. So every handle is the place of its string among these, and stays it while the table grows.
-/

namespace Modula.Interner

/-- What can be asked of a table. -/
inductive Call where
  /-- For the handle of a string, which is added if it is not there yet. -/
  | intern (s : String)
  /-- For the handle of a string, if it is there. -/
  | get (s : String)
deriving DecidableEq, Repr

/-- The string that a call is about. -/
def Call.text : Call → String
  | intern s => s
  | get s => s

/-- The string that a call adds to the table. -/
def Call.added? : Call → Option String
  | intern s => some s
  | get _ => none

/-- The answer to a call, and the table afterwards. -/
def serve (table : Interner) : Call → Option Handle × Interner
  | .intern s => (some (table.intern s).1, (table.intern s).2)
  | .get s => (table.get? s, table)

/-- The table after some calls. -/
def after (table : Interner) (calls : List Call) : Interner :=
  calls.foldl (fun t c => (t.serve c).2) table

/-- Calls one after the other, each with its answer. -/
def log (table : Interner) : List Call → List (Call × Option Handle)
  | [] => []
  | c :: later => (c, (table.serve c).1) :: (table.serve c).2.log later

/-- The distinct strings that are added, without the empty one, in the order of their first
arrival. -/
def distinct (calls : List Call) : List String :=
  ((calls.filterMap Call.added?).filter (· ≠ "")).eraseDups

variable {table : Interner} {calls : List Call}

@[simp]
theorem after_cons (table : Interner) (c : Call) (later : List Call) :
    table.after (c :: later) = (table.serve c).2.after later := rfl

theorem after_append (table : Interner) (earlier later : List Call) :
    table.after (earlier ++ later) = (table.after earlier).after later := List.foldl_append

theorem log_append (table : Interner) (earlier later : List Call) :
    table.log (earlier ++ later) = table.log earlier ++ (table.after earlier).log later := by
  induction earlier generalizing table with
  | nil => rfl
  | cons c earlier ih =>
    rw [List.cons_append, log, ih]
    rfl

/-- Every call is answered, in order. -/
theorem map_fst_log (table : Interner) (calls : List Call) :
    (table.log calls).map Prod.fst = calls := by
  induction calls generalizing table with
  | nil => rfl
  | cons c calls ih => rw [log, List.map_cons, ih]

/-- A call is answered from the table that the calls in front of it have left. -/
theorem log_split {c : Call} {a : Option Handle} {before behind : List (Call × Option Handle)}
    (h : table.log calls = before ++ (c, a) :: behind) :
    calls = before.map Prod.fst ++ c :: behind.map Prod.fst ∧
      before = table.log (before.map Prod.fst) ∧
      a = ((table.after (before.map Prod.fst)).serve c).1 ∧
      behind = ((table.after (before.map Prod.fst)).serve c).2.log (behind.map Prod.fst) := by
  have hcalls : calls = before.map Prod.fst ++ c :: behind.map Prod.fst := by
    rw [← map_fst_log table calls, h, List.map_append, List.map_cons]
  have hlog := h
  rw [hcalls, log_append, log] at hlog
  have hlength : (table.log (before.map Prod.fst)).length = before.length := by
    rw [← List.length_map Prod.fst, map_fst_log, List.length_map]
  obtain ⟨hbefore, hrest⟩ := List.append_inj hlog hlength
  obtain ⟨hc, hbehind⟩ := List.cons.inj hrest
  exact ⟨hcalls, hbefore.symm, (Prod.mk.inj hc).2.symm, hbehind.symm⟩

/-! ## Map and vector -/

/-- A call keeps the map and the vector inverse to each other. -/
theorem Inverse.serve (h : table.Inverse) (c : Call) : (table.serve c).2.Inverse := by
  cases c with
  | intern s => exact h.intern s
  | get s => exact h

/-- So do calls one after the other. -/
theorem Inverse.after (h : table.Inverse) (calls : List Call) : (table.after calls).Inverse := by
  induction calls generalizing table with
  | nil => exact h
  | cons c calls ih => exact ih (h.serve c)

theorem inverse_after_new (calls : List Call) : (new.after calls).Inverse :=
  inverse_new.after calls

/-! ## Growing -/

theorem extends_serve (table : Interner) (c : Call) : table.Extends (table.serve c).2 := by
  cases c with
  | intern s => exact extends_intern table s
  | get s => exact .refl table

theorem extends_after (table : Interner) (calls : List Call) : table.Extends (table.after calls) := by
  induction calls generalizing table with
  | nil => exact .refl table
  | cons c calls ih => exact (extends_serve table c).trans (ih _)

/-- A handle that is an answer is the one under which the string is found from then on. -/
theorem Inverse.get?_of_mem_log (h : table.Inverse) {c : Call} {n : Handle}
    (hmem : (c, some n) ∈ table.log calls) : (table.after calls).get? c.text = some n := by
  obtain ⟨before, behind, hlog⟩ := List.append_of_mem hmem
  obtain ⟨hcalls, -, ha, -⟩ := log_split hlog
  rw [hcalls, after_append, after_cons]
  have hserved := (h.after (before.map Prod.fst)).serve c
  refine (extends_after _ _).get? hserved (hserved.after _) ?_
  cases c with
  | intern s =>
    rw [Option.some.inj ha]
    exact get?_intern _ s
  | get s => exact ha.symm

/-- A string that is added is given a handle. -/
theorem Inverse.exists_of_mem_log (h : table.Inverse) {s : String} {a : Option Handle}
    (hmem : (.intern s, a) ∈ table.log calls) :
    ∃ n, a = some n ∧ (table.after calls).get? s = some n := by
  obtain ⟨before, behind, hlog⟩ := List.append_of_mem hmem
  obtain ⟨-, -, rfl, -⟩ := log_split hlog
  exact ⟨_, rfl, h.get?_of_mem_log hmem⟩

/-! ## The strings of a table -/

/-- A string is kept at the end unless it has come before. -/
theorem eraseDups_append_singleton (strings : List String) (s : String) :
    (strings ++ [s]).eraseDups =
      if s ∈ strings then strings.eraseDups else strings.eraseDups ++ [s] := by
  rw [List.eraseDups_append]
  split
  · next hs =>
    have hnil : [s].removeAll strings = [] := by simpa [List.removeAll] using hs
    rw [hnil]
    exact List.append_nil _
  · next hs =>
    have hall : [s].removeAll strings = [s] := by simpa [List.removeAll] using hs
    rw [hall]
    rfl

theorem distinct_append_get (calls : List Call) (s : String) :
    distinct (calls ++ [.get s]) = distinct calls := by
  rw [distinct, List.filterMap_append]
  exact congrArg (fun l => (List.filter (· ≠ "") l).eraseDups) (List.append_nil _)

/-- A string that arrives again, or is empty, is not kept once more. -/
theorem distinct_append_intern (calls : List Call) (s : String) :
    distinct (calls ++ [.intern s]) =
      if s ∈ "" :: distinct calls then distinct calls else distinct calls ++ [s] := by
  have hsplit : distinct (calls ++ [.intern s]) =
      ((calls.filterMap Call.added?).filter (· ≠ "") ++ [s].filter (· ≠ "")).eraseDups := by
    rw [← List.filter_append, distinct, List.filterMap_append]
    rfl
  rw [hsplit]
  by_cases hempty : s = ""
  · rw [hempty, if_pos List.mem_cons_self]
    exact congrArg List.eraseDups (List.append_nil _)
  · have hkept : [s].filter (· ≠ "") = [s] := by simp [hempty]
    have hmem : s ∈ "" :: distinct calls ↔ s ∈ (calls.filterMap Call.added?).filter (· ≠ "") := by
      rw [List.mem_cons, or_iff_right hempty, distinct, List.mem_eraseDups]
    rw [hkept, eraseDups_append_singleton]
    simp only [hmem]
    rfl

/-- A table holds the empty string, and behind it the strings that were added. -/
theorem strings_after (calls : List Call) :
    (new.after calls).strings.toList = "" :: distinct calls := by
  induction calls using List.reverseRecOn with
  | nil =>
    change new.strings.toList = _
    rw [strings_new]
    rfl
  | append_singleton calls c ih =>
    rw [after_append]
    cases c with
    | get s => rw [distinct_append_get, ← ih]; rfl
    | intern s =>
      have hstrings := (inverse_after_new calls).strings_intern s
      simp only [Array.mem_def, ih] at hstrings
      change ((new.after calls).intern s).2.strings.toList = _
      rw [hstrings, distinct_append_intern]
      split
      · exact ih
      · rw [Array.toList_push, ih, List.cons_append]

theorem get?_after_iff {s : String} {n : Handle} :
    (new.after calls).get? s = some n ↔ ("" :: distinct calls)[n.index]? = some s := by
  rw [(inverse_after_new calls).get?_eq_some_iff, ← Array.getElem?_toList, strings_after]

theorem mem_distinct_iff {s : String} : s ∈ distinct calls ↔ s ≠ "" ∧ .intern s ∈ calls := by
  have hadded : s ∈ calls.filterMap Call.added? ↔ .intern s ∈ calls := by
    rw [List.mem_filterMap]
    constructor
    · rintro ⟨c, hc, hs⟩
      cases c with
      | intern t => rwa [← Option.some.inj hs]
      | get t => cases hs
    · exact fun h => ⟨_, h, rfl⟩
  rw [distinct, List.mem_eraseDups, List.mem_filter, hadded, decide_eq_true_iff, and_comm]

/-- A string is found exactly if it is empty or has been added. -/
theorem isSome_get?_after_iff {s : String} :
    ((new.after calls).get? s).isSome = true ↔ s = "" ∨ .intern s ∈ calls := by
  rw [(inverse_after_new calls).isSome_get?_iff, Array.mem_def, strings_after, List.mem_cons,
    mem_distinct_iff]
  tauto

/-- The empty string is found at place 0. -/
theorem get?_after_empty (calls : List Call) : (new.after calls).get? "" = some .empty :=
  get?_after_iff.2 rfl

/-- A handle beyond the end of a table stands for the empty string. -/
theorem lookup_of_size_le {n : Handle} (h : table.size ≤ n.index) : table.lookup n = "" := by
  rw [lookup, Array.getD_eq_getD_getElem?, Array.getElem?_eq_none h, Option.getD_none]

/-! ## Handles and strings -/

/-- How the answers to calls on a new table, and the table after them, go with the strings. -/
structure OneToOne (calls : List Call) (log : List (Call × Option Handle)) (table : Interner) :
    Prop where
  /-- The map of the table has a string at a place exactly if the vector has it there. -/
  inverse : table.Inverse
  /-- Every call is answered, in order. -/
  answered : log.map Prod.fst = calls
  /-- The empty string has the handle 0. -/
  empty : ∀ a, (.intern "", a) ∈ log → a = some .empty
  /-- Any other string is given its place among the distinct strings, counted from 1. -/
  place : ∀ s a, (.intern s, a) ∈ log → s ≠ "" →
    ∃ k, (distinct calls)[k]? = some s ∧ a = some ⟨k + 1⟩
  /-- Handles are equal exactly if their strings are. -/
  eq_iff : ∀ s t n m, (.intern s, some n) ∈ log → (.intern t, some m) ∈ log → (n = m ↔ s = t)
  /-- A handle that was given out still stands for its string. -/
  stands : ∀ s n, (.intern s, some n) ∈ log →
    table.lookup n = s ∧ table.length n = s.utf8ByteSize
  /-- A string is found exactly if it is empty or has been added before. -/
  found : ∀ before s a behind, log = before ++ (.get s, a) :: behind →
    (a.isSome = true ↔ s = "" ∨ .intern s ∈ before.map Prod.fst)
  /-- It is found under the handle that is given out for it. -/
  found_eq : ∀ s n m, (.get s, some n) ∈ log → (.intern s, some m) ∈ log → n = m
  /-- The empty string is found under the handle 0. -/
  found_empty : ∀ a, (.get "", a) ∈ log → a = some .empty
  /-- Without a call that looks a string up, all other answers and the table are the same. -/
  idle : ∀ before s a behind, log = before ++ (.get s, a) :: behind →
    new.log (before.map Prod.fst ++ behind.map Prod.fst) = before ++ behind ∧
      new.after (before.map Prod.fst ++ behind.map Prod.fst) = table
  size : table.size = 1 + (distinct calls).length
  /-- Any handle that the table has not given out stands for the empty string. -/
  beyond : ∀ n : Handle, table.size ≤ n.index → table.lookup n = ""

/-- Handles and strings correspond one to one, whatever a table is asked for and in whatever order.
Since this holds after any calls, it holds at any time of the life of a table. An index is at most
the number of distinct strings, and so has 32 bits as long as there are fewer than 2 ^ 32. -/
theorem handles_one_to_one (calls : List Call) :
    OneToOne calls (new.log calls) (new.after calls) where
  inverse := inverse_after_new calls
  answered := map_fst_log new calls
  empty := by
    intro a ha
    obtain ⟨n, rfl, hn⟩ := inverse_new.exists_of_mem_log ha
    rw [← hn, get?_after_empty]
  place := by
    intro s a ha hs
    obtain ⟨⟨i⟩, rfl, hn⟩ := inverse_new.exists_of_mem_log ha
    rw [get?_after_iff] at hn
    cases i with
    | zero => exact absurd (Option.some.inj hn).symm hs
    | succ k => exact ⟨k, hn, rfl⟩
  eq_iff := by
    intro s t n m hs ht
    have hn := inverse_new.get?_of_mem_log hs
    have hm := inverse_new.get?_of_mem_log ht
    have hinverse := inverse_after_new calls
    constructor
    · rintro rfl
      exact (hinverse.lookup_of_get? hn).symm.trans (hinverse.lookup_of_get? hm)
    · rintro rfl
      exact Option.some.inj (hn.symm.trans hm)
  stands := by
    intro s n hs
    have hlookup := (inverse_after_new calls).lookup_of_get? (inverse_new.get?_of_mem_log hs)
    exact ⟨hlookup, congrArg String.utf8ByteSize hlookup⟩
  found := by
    intro before s a behind hlog
    obtain ⟨-, -, rfl, -⟩ := log_split hlog
    exact isSome_get?_after_iff
  found_eq := by
    intro s n m hs ht
    have hn : (new.after calls).get? s = some n := inverse_new.get?_of_mem_log hs
    have hm : (new.after calls).get? s = some m := inverse_new.get?_of_mem_log ht
    exact Option.some.inj (hn.symm.trans hm)
  found_empty := by
    intro a ha
    obtain ⟨before, behind, hlog⟩ := List.append_of_mem ha
    obtain ⟨-, -, rfl, -⟩ := log_split hlog
    exact get?_after_empty _
  idle := by
    intro before s a behind hlog
    obtain ⟨hcalls, hbefore, -, hbehind⟩ := log_split hlog
    constructor
    · rw [log_append, ← hbefore]
      exact congrArg (before ++ ·) hbehind.symm
    · rw [hcalls, after_append, after_append]
      rfl
  size := by
    have hlength := congrArg List.length (strings_after calls)
    rw [Array.length_toList, List.length_cons] at hlength
    rw [Interner.size, hlength, Nat.add_comm]
  beyond := fun _ => lookup_of_size_le

end Modula.Interner
