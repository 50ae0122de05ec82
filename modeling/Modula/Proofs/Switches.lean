import Mathlib.Data.List.Forall2
import Mathlib.Data.List.Induction
import Mathlib.Data.List.TakeWhile
import Mathlib.Data.Nat.Digits.Defs
import Modula.CommandLine

/-!
# What a command line says

`Spells` lists the spellings of the switches, and `InError` says what can be wrong with an argument
in front of the first double dash. If one of these arguments is in error, the first such one is the
answer. Otherwise the answer is what the switches ask for (`read_means`): some add up, and of the
others the last one wins.
-/

namespace Modula

namespace CommandLine

/-! ## Numerals -/

/-- The text is a numeral of 32 bits, perhaps after a plus sign, and this is its value. -/
def IsNumeral (text : String) (n : Nat) : Prop :=
  ∃ digits, (text.toList = digits ∨ text.toList = '+' :: digits) ∧ digits ≠ [] ∧
    (∀ c ∈ digits, c.isDigit) ∧
    n = Nat.ofDigits 10 (digits.reverse.map fun c => c.toNat - '0'.toNat) ∧ n < 2 ^ 32

theorem foldl_digits (digits : List Char) :
    digits.foldl (fun n c => 10 * n + (c.toNat - '0'.toNat)) 0 =
      Nat.ofDigits 10 (digits.reverse.map fun c => c.toNat - '0'.toNat) := by
  induction digits using List.reverseRecOn with
  | nil => rfl
  | append_singleton digits c ih =>
    rw [List.foldl_append, List.foldl_cons, List.foldl_nil, ih, List.reverse_append,
      List.reverse_singleton, List.singleton_append, List.map_cons, Nat.ofDigits_cons, Nat.add_comm]

theorem digitsValue?_eq_some_iff {digits : List Char} {n : Nat} :
    digitsValue? digits = some n ↔ digits ≠ [] ∧ (∀ c ∈ digits, c.isDigit) ∧
      n = Nat.ofDigits 10 (digits.reverse.map fun c => c.toNat - '0'.toNat) := by
  rw [digitsValue?, foldl_digits, Option.ite_none_left_eq_some, Option.some.injEq,
    Bool.not_eq_true, Bool.or_eq_false_iff, Bool.not_eq_false', List.all_eq_true,
    List.isEmpty_eq_false_iff, and_assoc, eq_comm (a := n)]

theorem numeral?_eq_some_iff {text : String} {n : Nat} :
    numeral? text = some n ↔ IsNumeral text n := by
  have hdigits {digits : List Char} :
      (digitsValue? digits).filter (· < Nat.pow 2 32) = some n ↔ digits ≠ [] ∧
        (∀ c ∈ digits, c.isDigit) ∧
        n = Nat.ofDigits 10 (digits.reverse.map fun c => c.toNat - '0'.toNat) ∧ n < 2 ^ 32 := by
    rw [Option.filter_eq_some_iff, digitsValue?_eq_some_iff, decide_eq_true_eq, and_assoc,
      and_assoc]
    rfl
  rw [numeral?]
  split
  next digits htext =>
    rw [hdigits, IsNumeral, htext]
    constructor
    · exact fun h => ⟨digits, .inr rfl, h⟩
    · rintro ⟨digits', rfl | hcons, h⟩
      · exact absurd (h.2.1 '+' List.mem_cons_self) (by decide)
      · rwa [(List.cons.inj hcons).2]
  next hplus =>
    rw [hdigits]
    constructor
    · exact fun h => ⟨text.toList, .inl rfl, h⟩
    · rintro ⟨digits, rfl | hcons, h⟩
      · exact h
      · exact absurd hcons (hplus digits)

/-! ## Values -/

variable {a name value : String} {c : CommandLine}

theorem cutValue?_eq_none (h : '=' ∉ a.toList) : cutValue? a = none := by
  have hname : a.toList.takeWhile (· != '=') = a.toList :=
    List.takeWhile_eq_self_iff.2 fun c hc => bne_iff_ne.2 fun hcut => h (hcut ▸ hc)
  simp only [cutValue?, hname, List.drop_length]

theorem cutValue?_append (h : '=' ∉ name.toList) :
    cutValue? (name ++ "=" ++ value) = some (name, value) := by
  have hname : ∀ c ∈ name.toList, (c != '=') = true :=
    fun c hc => bne_iff_ne.2 fun hcut => h (hcut ▸ hc)
  have hcut : (name ++ "=" ++ value).toList = name.toList ++ '=' :: value.toList := by
    rw [String.toList_append, String.toList_append, List.append_assoc]
    rfl
  have htake : (name.toList ++ '=' :: value.toList).takeWhile (· != '=') = name.toList := by
    rw [List.takeWhile_append_of_pos hname, List.takeWhile_cons_of_neg (by decide),
      List.append_nil]
  simp only [cutValue?, hcut, htake, List.drop_left, String.ofList_toList]

theorem exists_cut (h : '=' ∈ a.toList) :
    ∃ name value, a = name ++ "=" ++ value ∧ '=' ∉ name.toList := by
  obtain ⟨name, value, ha, hname⟩ := List.eq_append_cons_of_mem h
  refine ⟨String.ofList name, String.ofList value, ?_, by rwa [String.toList_ofList]⟩
  rw [← String.ofList_toList (s := a), ha, ← List.singleton_append, ← List.append_assoc,
    String.ofList_append, String.ofList_append]

/-! ## Spellings -/

/-- What a switch can ask for. -/
inductive Switch where
  | kind (kind : UnitKind)
  | dollar
  | lowline
  | comments
  | extensible
  | mode (mode : Mode)
  | verbose
  | errantSemicolon (severity : Severity)
  | maxNesting (limit : Nat)
  | color (color : ColorMode)
deriving DecidableEq, Repr

/-- The switches and how they are spelled. -/
inductive Spells : String → Switch → Prop
  | definition : Spells "--def" (.kind .definition)
  | program : Spells "--mod" (.kind .program)
  | dollar : Spells "--dollar-ids" .dollar
  | lowline : Spells "--lowline-ids" .lowline
  | comments : Spells "--preserve-comments" .comments
  | extensible : Spells "--extensible-records" .extensible
  | tokens : Spells "--tokens" (.mode .tokens)
  | ast : Spells "--ast" (.mode .ast)
  | v : Spells "-v" .verbose
  | verbose : Spells "--verbose" .verbose
  | warn : Spells "--errant-semicolon=warn" (.errantSemicolon .warning)
  | warning : Spells "--errant-semicolon=warning" (.errantSemicolon .warning)
  | error : Spells "--errant-semicolon=error" (.errantSemicolon .error)
  | maxNesting {value : String} {limit : Nat} (h : IsNumeral value limit) (hpos : 0 < limit) :
      Spells ("--max-nesting" ++ "=" ++ value) (.maxNesting limit)
  | auto : Spells "--color=auto" (.color .auto)
  | always : Spells "--color=always" (.color .always)
  | never : Spells "--color=never" (.color .never)

/-- The switches that need a value. -/
def valuedOptions : List String := ["--errant-semicolon", "--max-nesting", "--color"]

theorem not_mem_of_valuedOptions : ∀ option ∈ valuedOptions, '=' ∉ option.toList := by
  decide

/-- What is wrong with an argument, given the ones in front of it. -/
inductive InError (before : List String) : String → UsageError → Prop
  | dashH : InError before "-h" .help
  | help : InError before "--help" .help
  | kinds {a b : String} {k k' : UnitKind} (h : Spells a (.kind k)) (hmem : b ∈ before)
      (hb : Spells b (.kind k')) (hne : k' ≠ k) : InError before a .conflictingKinds
  | value {option value : String} (hoption : option ∈ valuedOptions)
      (h : ∀ s, ¬ Spells (option ++ "=" ++ value) s) :
      InError before (option ++ "=" ++ value) (.invalidValue option value)
  | unknown {a : String} (hswitch : isSwitch a) (hhelp : a ∉ ["-h", "--help"])
      (h : ∀ s, ¬ Spells a s)
      (hvalue : ∀ option ∈ valuedOptions, ∀ value, a ≠ option ++ "=" ++ value) :
      InError before a (.unknownOption a)

/-- None of the arguments is in error. -/
def Sound (arguments : List String) : Prop :=
  ∀ before a after e, arguments = before ++ a :: after → ¬ InError before a e

/-- What is wrong with the first argument in error. -/
def FirstError (arguments : List String) (e : UsageError) : Prop :=
  ∃ before a after, arguments = before ++ a :: after ∧ Sound before ∧ InError before a e

/-! ## Meanings -/

/-- The mode that a switch asks for. -/
def Switch.mode? : Switch → Option Mode
  | mode m => some m
  | _ => none

/-- The colouring that a switch asks for. -/
def Switch.color? : Switch → Option ColorMode
  | color m => some m
  | _ => none

/-- The severity that a switch asks for. -/
def Switch.errantSemicolon? : Switch → Option Severity
  | errantSemicolon s => some s
  | _ => none

/-- The limit that a switch asks for. -/
def Switch.maxNesting? : Switch → Option Nat
  | maxNesting n => some n
  | _ => none

/-- The last of the things that switches ask for. -/
def lastGiven {α : Type} (f : Switch → Option α) (switches : List Switch) (default : α) : α :=
  (switches.filterMap f).getLast?.getD default

/-- Apart from its files, a command line asks for just what these switches do. -/
structure Means (c : CommandLine) (switches : List Switch) : Prop where
  kind (k : UnitKind) : c.kind = some k ↔ .kind k ∈ switches
  dollar : c.options.lexical.dollar ↔ .dollar ∈ switches
  lowline : c.options.lexical.lowline ↔ .lowline ∈ switches
  comments : c.options.lexical.comments ↔ .comments ∈ switches
  verbose : c.verbose ↔ .verbose ∈ switches
  records : c.options.records = .extensible ↔ .extensible ∈ switches
  mode : c.mode = lastGiven Switch.mode? switches .check
  color : c.color = lastGiven Switch.color? switches .auto
  errantSemicolon :
    c.options.errantSemicolon = lastGiven Switch.errantSemicolon? switches .warning
  maxNesting : c.options.maxNesting = lastGiven Switch.maxNesting? switches defaultMaxNesting

theorem means_nil : Means {} [] := by
  constructor
  case kind => exact fun k => iff_of_false nofun List.not_mem_nil
  case mode | color | errantSemicolon | maxNesting => rfl
  all_goals exact iff_of_false nofun List.not_mem_nil

theorem Means.withFiles {switches : List Switch} (h : Means c switches) (files : List String) :
    Means { c with files } switches :=
  ⟨h.kind, h.dollar, h.lowline, h.comments, h.verbose, h.records, h.mode, h.color,
    h.errantSemicolon, h.maxNesting⟩

theorem lastGiven_append_singleton {α : Type} (f : Switch → Option α) (switches : List Switch)
    (s : Switch) (default : α) :
    lastGiven f (switches ++ [s]) default = (f s).getD (lastGiven f switches default) := by
  rw [lastGiven, List.filterMap_append, List.filterMap_cons, List.filterMap_nil]
  cases f s with
  | none => rw [List.append_nil]; rfl
  | some x => rw [List.getLast?_concat]; rfl

/-- What a command line asks for after one more switch. -/
def Switch.set (c : CommandLine) : Switch → CommandLine
  | kind k => { c with kind := some k }
  | dollar => { c with options.lexical.dollar := true }
  | lowline => { c with options.lexical.lowline := true }
  | comments => { c with options.lexical.comments := true }
  | extensible => { c with options.records := .extensible }
  | mode m => { c with mode := m }
  | verbose => { c with verbose := true }
  | errantSemicolon s => { c with options.errantSemicolon := s }
  | maxNesting n => { c with options.maxNesting := n }
  | color m => { c with color := m }

@[simp]
theorem Switch.set_files (c : CommandLine) (s : Switch) : (s.set c).files = c.files := by
  cases s <;> rfl

theorem Means.set {switches : List Switch} {s : Switch} (h : Means c switches)
    (hs : ∀ k, s = .kind k → ∀ k', .kind k' ∈ switches → k' = k) :
    Means (s.set c) (switches ++ [s]) := by
  constructor
  case kind =>
    intro k'
    rw [List.mem_append, List.mem_singleton, ← h.kind]
    cases s with
    | kind k =>
      have hk := hs k rfl k'
      rw [← h.kind] at hk
      simp only [Switch.set, Option.some.injEq, Switch.kind.injEq]
      exact ⟨fun h => .inr h.symm, fun h => h.elim (fun h => (hk h).symm) Eq.symm⟩
    | _ => simp only [Switch.set, reduceCtorEq, or_false]
  case dollar => cases s <;> simp [Switch.set, h.dollar]
  case lowline => cases s <;> simp [Switch.set, h.lowline]
  case comments => cases s <;> simp [Switch.set, h.comments]
  case verbose => cases s <;> simp [Switch.set, h.verbose]
  case records => cases s <;> simp [Switch.set, h.records]
  case mode => rw [lastGiven_append_singleton, ← h.mode]; cases s <;> rfl
  case color => rw [lastGiven_append_singleton, ← h.color]; cases s <;> rfl
  case errantSemicolon =>
    rw [lastGiven_append_singleton, ← h.errantSemicolon]; cases s <;> rfl
  case maxNesting => rw [lastGiven_append_singleton, ← h.maxNesting]; cases s <;> rfl

/-! ## One switch -/

/-- Behind an equals sign stands a value. -/
theorem switch_append (c : CommandLine) (name value : String) :
    c.switch (name ++ "=" ++ value) = c.valued (name ++ "=" ++ value) := by
  have h : '=' ∈ (name ++ "=" ++ value).toList := by
    rw [String.toList_append, String.toList_append]
    exact List.mem_append_left _ (List.mem_append_right _ List.mem_cons_self)
  unfold switch
  -- None of the switches without a value has an equals sign.
  split
  case h_13 => rfl
  all_goals
    rename_i heq
    rw [heq] at h
    exact absurd h (by decide)

theorem withKind_of_compatible {k : UnitKind} (h : ∀ k', c.kind = some k' → k' = k) :
    c.withKind k = .ok { c with kind := some k } := by
  unfold withKind
  split
  next => rfl
  next earlier hkind =>
    have := h earlier hkind
    subst this
    rw [if_pos rfl, ← hkind]

theorem withKind_of_conflict {k k' : UnitKind} (h : c.kind = some k') (hne : k' ≠ k) :
    c.withKind k = .error .conflictingKinds := by
  simp only [withKind, h, if_neg hne]

/-- A switch asks for what it spells, unless it is the other kind of units. -/
theorem switch_of_spells {s : Switch} (h : Spells a s)
    (hkind : ∀ k, s = .kind k → ∀ k', c.kind = some k' → k' = k) : c.switch a = .ok (s.set c) := by
  cases h with
  | definition => exact withKind_of_compatible (hkind _ rfl)
  | program => exact withKind_of_compatible (hkind _ rfl)
  | @maxNesting value limit h hpos =>
    obtain ⟨limit, rfl⟩ := Nat.exists_eq_succ_of_ne_zero hpos.ne'
    rw [switch_append, valued, cutValue?_append (by decide)]
    dsimp only
    rw [numeral?_eq_some_iff.2 h]
    rfl
  | _ => rfl

/-- A value that is not accepted. -/
theorem switch_of_value (c : CommandLine) (hname : name ∈ valuedOptions)
    (h : ∀ s, ¬ Spells (name ++ "=" ++ value) s) :
    c.switch (name ++ "=" ++ value) = .error (.invalidValue name value) := by
  rw [switch_append, valued, cutValue?_append (not_mem_of_valuedOptions _ hname)]
  dsimp only
  split
  · split
    · exact absurd .warn (h _)
    · exact absurd .warning (h _)
    · exact absurd .error (h _)
    · rfl
  · split
    next limit hlimit =>
      exact absurd (.maxNesting (numeral?_eq_some_iff.1 hlimit) limit.succ_pos) (h _)
    · rfl
  · split
    · exact absurd .auto (h _)
    · exact absurd .always (h _)
    · exact absurd .never (h _)
    · rfl
  next hsemicolon hnesting hcolor =>
    simp only [valuedOptions, List.mem_cons, List.not_mem_nil, or_false] at hname
    exact (hname.elim hsemicolon fun h => h.elim hnesting hcolor).elim

theorem switch_of_unknown (c : CommandLine) (hhelp : a ∉ ["-h", "--help"])
    (h : ∀ s, ¬ Spells a s)
    (hvalue : ∀ option ∈ valuedOptions, ∀ value, a ≠ option ++ "=" ++ value) :
    c.switch a = .error (.unknownOption a) := by
  by_cases hcut : '=' ∈ a.toList
  · obtain ⟨name, value, rfl, hname⟩ := exists_cut hcut
    rw [switch_append, valued, cutValue?_append hname]
    dsimp only
    split
    · exact absurd rfl (hvalue _ (by decide) _)
    · exact absurd rfl (hvalue _ (by decide) _)
    · exact absurd rfl (hvalue _ (by decide) _)
    · rfl
  · unfold switch
    split
    · exact absurd (by decide) hhelp
    · exact absurd (by decide) hhelp
    · exact absurd .definition (h _)
    · exact absurd .program (h _)
    · exact absurd .dollar (h _)
    · exact absurd .lowline (h _)
    · exact absurd .comments (h _)
    · exact absurd .extensible (h _)
    · exact absurd .tokens (h _)
    · exact absurd .ast (h _)
    · exact absurd .v (h _)
    · exact absurd .verbose (h _)
    · rw [valued, cutValue?_eq_none hcut]

/-- An argument in error is rejected, if just the kinds in front of it have been asked for. -/
theorem switch_of_inError {before : List String} {e : UsageError} (h : InError before a e)
    (hkind : ∀ b ∈ before, ∀ k, Spells b (.kind k) → c.kind = some k) : c.switch a = .error e := by
  cases h with
  | dashH => rfl
  | help => rfl
  | kinds h hmem hb hne =>
    have hc := hkind _ hmem _ hb
    cases h with
    | definition => exact withKind_of_conflict hc hne
    | program => exact withKind_of_conflict hc hne
  | value hoption h => exact switch_of_value c hoption h
  | unknown hswitch hhelp h hvalue => exact switch_of_unknown c hhelp h hvalue

/-- A switch without error spells something, and no other kind stands in front of it. -/
theorem exists_spells {before : List String} (hswitch : isSwitch a)
    (h : ∀ e, ¬ InError before a e) :
    ∃ s, Spells a s ∧
      ∀ k, s = .kind k → ∀ b ∈ before, ∀ k', Spells b (.kind k') → k' = k := by
  by_cases hspells : ∃ s, Spells a s
  · obtain ⟨s, hs⟩ := hspells
    refine ⟨s, hs, ?_⟩
    rintro k rfl b hmem k' hb
    by_contra hne
    exact h _ (.kinds hs hmem hb hne)
  · rw [not_exists] at hspells
    refine absurd (InError.unknown hswitch ?_ hspells ?_) (h _)
    · simp only [List.mem_cons, List.not_mem_nil, or_false]
      rintro (rfl | rfl)
      · exact h _ .dashH
      · exact h _ .help
    · rintro option hoption value rfl
      exact h _ (.value hoption hspells)

theorem isSwitch_of_spells_kind {k : UnitKind} (h : Spells a (.kind k)) : isSwitch a := by
  cases h <;> rfl

theorem InError.isSwitch {before : List String} {e : UsageError} (h : InError before a e) :
    isSwitch a := by
  cases h with
  | dashH => rfl
  | help => rfl
  | kinds h => exact isSwitch_of_spells_kind h
  | value hoption =>
    simp only [valuedOptions, List.mem_cons, List.not_mem_nil, or_false] at hoption
    rw [CommandLine.isSwitch, String.toList_append, String.toList_append]
    rcases hoption with rfl | rfl | rfl <;> rfl
  | unknown hswitch => exact hswitch

theorem eq_of_spells_kind {k : UnitKind} {s : Switch} (h : Spells a (.kind k)) (hs : Spells a s) :
    s = .kind k := by
  -- On top of nothing both are read, so they set the same.
  have hread {s : Switch} (hs : Spells a s) : switch {} a = .ok (s.set {}) :=
    switch_of_spells hs fun _ _ _ hk => nomatch hk
  have hset : s.set {} = Switch.set {} (.kind k) := Except.ok.inj ((hread hs).symm.trans (hread h))
  have hkind := congrArg CommandLine.kind hset
  cases s with
  | kind k' => rw [Option.some.inj hkind]
  | _ => cases hkind

/-! ## All arguments -/

theorem sound_nil : Sound [] := by
  intro before a after e h
  cases before <;> cases h

theorem sound_append_singleton {before : List String} :
    Sound (before ++ [a]) ↔ Sound before ∧ ∀ e, ¬ InError before a e := by
  constructor
  · intro h
    refine ⟨fun b x after e hb => h b x (after ++ [a]) e (by rw [hb, List.append_assoc]; rfl),
      fun e => h before a [] e rfl⟩
  · rintro ⟨h, ha⟩ b x after e hb
    obtain rfl | ⟨after, z, rfl⟩ := List.eq_nil_or_concat after
    · obtain ⟨rfl, hx⟩ := List.append_inj' hb rfl
      rw [← (List.cons.inj hx).1]
      exact ha e
    · rw [List.concat_eq_append, ← List.cons_append, ← List.append_assoc] at hb
      exact h b x after e (List.append_inj' hb rfl).1

/-- Without a first error there is none. -/
theorem sound_or_firstError (arguments : List String) :
    Sound arguments ∨ ∃ e, FirstError arguments e := by
  induction arguments using List.reverseRecOn with
  | nil => exact .inl sound_nil
  | append_singleton before a ih =>
    obtain h | ⟨e, b, x, after, rfl, hb, hx⟩ := ih
    · by_cases ha : ∃ e, InError before a e
      · obtain ⟨e, ha⟩ := ha
        exact .inr ⟨e, before, a, [], rfl, h, ha⟩
      · exact .inl (sound_append_singleton.2 ⟨h, not_exists.1 ha⟩)
    · exact .inr ⟨e, b, x, after ++ [a], by rw [List.append_assoc]; rfl, hb, hx⟩

theorem readOnto_append {front : List String} (c : CommandLine) (h : "--" ∉ front)
    (behind : List String) :
    c.readOnto (front ++ behind) = (c.readOnto front).bind (·.readOnto behind) := by
  induction front generalizing c with
  | nil => rfl
  | cons a front ih =>
    rw [List.mem_cons, not_or] at h
    rw [List.cons_append, readOnto, readOnto, if_neg (Ne.symm h.1), if_neg (Ne.symm h.1)]
    split
    · cases c.switch a with
      | error e => rfl
      | ok c => exact ih c h.2
    · exact ih _ h.2

/-- A command line asks for what some arguments say. -/
structure Asked (front : List String) (c : CommandLine) (switches : List Switch) : Prop where
  spells : List.Forall₂ Spells (front.filter isSwitch) switches
  means : Means c switches
  files : c.files = front.filter (!isSwitch ·)

theorem exists_of_mem_left {α β : Type} {R : α → β → Prop} {as : List α} {bs : List β}
    (h : List.Forall₂ R as bs) {a : α} (ha : a ∈ as) : ∃ b ∈ bs, R a b := by
  induction h with
  | nil => cases ha
  | cons hab _ ih =>
    cases ha with
    | head => exact ⟨_, .head _, hab⟩
    | tail _ ha =>
      obtain ⟨b, hb, hab⟩ := ih ha
      exact ⟨b, .tail _ hb, hab⟩

/-- The kind that is asked for is one that an argument spells. -/
theorem Asked.kind_iff {front : List String} {switches : List Switch}
    (h : Asked front c switches) (k : UnitKind) :
    c.kind = some k ↔ ∃ b ∈ front, Spells b (.kind k) := by
  rw [h.means.kind]
  constructor
  · intro hk
    obtain ⟨b, hb, hspells⟩ := exists_of_mem_left h.spells.flip hk
    exact ⟨b, (List.mem_filter.1 hb).1, hspells⟩
  · rintro ⟨b, hb, hspells⟩
    obtain ⟨s, hs, hbs⟩ := exists_of_mem_left h.spells
      (List.mem_filter.2 ⟨hb, isSwitch_of_spells_kind hspells⟩)
    rwa [← eq_of_spells_kind hspells hbs]

/-- One more argument without error. -/
theorem Asked.append_singleton {front : List String} {switches : List Switch}
    (h : Asked front c switches) (ha : ∀ e, ¬ InError front a e) (hdash : a ≠ "--") :
    ∃ c' switches', c.readOnto [a] = .ok c' ∧ Asked (front ++ [a]) c' switches' := by
  rw [readOnto, if_neg hdash]
  by_cases hswitch : isSwitch a
  · obtain ⟨s, hs, hkind⟩ := exists_spells hswitch ha
    have hread := switch_of_spells hs (c := c) fun k hk k' hk' =>
      have ⟨b, hb, hspells⟩ := (h.kind_iff k').1 hk'
      hkind k hk b hb k' hspells
    refine ⟨s.set c, switches ++ [s], by rw [if_pos hswitch, hread]; rfl, ?_, ?_, ?_⟩
    · rw [List.filter_append, List.filter_cons_of_pos hswitch]
      exact List.rel_append h.spells (.cons hs .nil)
    · refine h.means.set fun k hk k' hk' => ?_
      obtain ⟨b, hb, hspells⟩ := (h.kind_iff k').1 ((h.means.kind k').2 hk')
      exact hkind k hk b hb k' hspells
    · rw [Switch.set_files, h.files, List.filter_append, List.filter_cons_of_neg (by simpa),
        List.filter_nil, List.append_nil]
  · refine ⟨{ c with files := c.files ++ [a] }, switches, by rw [if_neg hswitch]; rfl, ?_,
      h.means.withFiles _, ?_⟩
    · rw [List.filter_append, List.filter_cons_of_neg hswitch, List.filter_nil, List.append_nil]
      exact h.spells
    · rw [List.filter_append, List.filter_cons_of_pos (by simpa using hswitch),
        List.filter_nil]
      exact congrArg (· ++ [a]) h.files

/-- Arguments without error are read, and their switches mean what they say. -/
theorem exists_asked_of_sound {front : List String} (h : Sound front) (hdash : "--" ∉ front) :
    ∃ c switches, readOnto {} front = .ok c ∧ Asked front c switches := by
  induction front using List.reverseRecOn with
  | nil => exact ⟨{}, [], rfl, .nil, means_nil, rfl⟩
  | append_singleton front a ih =>
    obtain ⟨hfront, ha⟩ := sound_append_singleton.1 h
    rw [List.mem_append, List.mem_singleton, not_or] at hdash
    obtain ⟨c, switches, hread, hasked⟩ := ih hfront hdash.1
    obtain ⟨c', switches', hread', hasked'⟩ := hasked.append_singleton ha (Ne.symm hdash.2)
    refine ⟨c', switches', ?_, hasked'⟩
    rw [readOnto_append _ hdash.1, hread]
    exact hread'

/-- Nothing behind the first error matters. -/
theorem readOnto_of_firstError {front : List String} {e : UsageError} (h : FirstError front e)
    (hdash : "--" ∉ front) (behind : List String) :
    readOnto {} (front ++ behind) = .error e := by
  obtain ⟨before, a, after, rfl, hbefore, ha⟩ := h
  rw [List.mem_append, List.mem_cons, not_or, not_or] at hdash
  obtain ⟨c, switches, hread, hasked⟩ := exists_asked_of_sound hbefore hdash.1
  have hswitch := switch_of_inError ha fun b hb k hspells => (hasked.kind_iff k).2 ⟨b, hb, hspells⟩
  have hstep : c.readOnto (a :: (after ++ behind)) = .error e := by
    rw [readOnto, if_neg (Ne.symm hdash.2.1), if_pos ha.isSwitch, hswitch]
  rw [List.append_assoc, readOnto_append _ hdash.1, hread]
  exact hstep

/-- The arguments among which switches are looked for. -/
def beforeDashes (arguments : List String) : List String := arguments.takeWhile (· ≠ "--")

/-- The arguments behind the first double dash. -/
def behindDashes (arguments : List String) : List String :=
  (arguments.dropWhile (· ≠ "--")).tail

/-- The arguments that are files. -/
def named (arguments : List String) : List String :=
  (beforeDashes arguments).filter (!isSwitch ·) ++ behindDashes arguments

theorem not_mem_beforeDashes (arguments : List String) : "--" ∉ beforeDashes arguments := by
  intro h
  simpa using List.mem_takeWhile_imp h

theorem eq_beforeDashes_append (arguments : List String) :
    arguments = beforeDashes arguments ++ arguments.dropWhile (· ≠ "--") :=
  List.takeWhile_append_dropWhile.symm

/-- Behind the first double dash all arguments are files. -/
theorem readOnto_dropWhile (c : CommandLine) (arguments : List String) :
    c.readOnto (arguments.dropWhile (· ≠ "--")) =
      .ok { c with files := c.files ++ behindDashes arguments } := by
  rw [behindDashes]
  induction arguments with
  | nil => simp only [List.dropWhile_nil, List.tail_nil, List.append_nil, readOnto]
  | cons a later ih =>
    by_cases hdash : a = "--"
    · rw [List.dropWhile_cons_of_neg (by simpa using hdash), readOnto, if_pos hdash, List.tail_cons]
    · rw [List.dropWhile_cons_of_pos (by simpa using hdash), ih]

/-- Arguments without error name files, and their switches mean what they say. -/
theorem exists_readOnto_of_sound {arguments : List String} (h : Sound (beforeDashes arguments)) :
    ∃ c switches, readOnto {} arguments = .ok c ∧ c.files = named arguments ∧
      List.Forall₂ Spells ((beforeDashes arguments).filter isSwitch) switches ∧
      Means c switches := by
  have hdash := not_mem_beforeDashes arguments
  obtain ⟨c, switches, hread, hasked⟩ := exists_asked_of_sound h hdash
  refine ⟨{ c with files := c.files ++ behindDashes arguments }, switches, ?_, ?_, hasked.spells,
    hasked.means.withFiles _⟩
  · conv_lhs => rw [eq_beforeDashes_append arguments]
    rw [readOnto_append _ hdash, hread]
    exact readOnto_dropWhile c arguments
  · rw [named, ← hasked.files]

/-- Either an argument is in error, and the first one decides. Or all switches mean what they say,
and there must be a file. -/
theorem read_means (arguments : List String) :
    (Sound (beforeDashes arguments) ∨ ∃ e, FirstError (beforeDashes arguments) e) ∧
    (∀ e, FirstError (beforeDashes arguments) e → read arguments = .error e) ∧
    (Sound (beforeDashes arguments) →
      (named arguments = [] → read arguments = .error .noInput) ∧
      (named arguments ≠ [] → ∃ c switches, read arguments = .ok c ∧ c.files = named arguments ∧
        List.Forall₂ Spells ((beforeDashes arguments).filter isSwitch) switches ∧
        Means c switches)) := by
  refine ⟨sound_or_firstError _, fun e he => ?_, fun hsound => ?_⟩
  · have hread := readOnto_of_firstError he (not_mem_beforeDashes arguments)
      (arguments.dropWhile (· ≠ "--"))
    rw [← eq_beforeDashes_append] at hread
    rw [read, hread]
  · obtain ⟨c, switches, hread, hfiles, hspells, hmeans⟩ := exists_readOnto_of_sound hsound
    have hend : read arguments = if c.files.isEmpty then .error .noInput else .ok c := by
      rw [read, hread]
    rw [hend, hfiles]
    refine ⟨fun h => ?_, fun h => ⟨c, switches, ?_, hfiles, hspells, hmeans⟩⟩
    · rw [h, List.isEmpty_nil, if_pos rfl]
    · rw [if_neg (by rwa [List.isEmpty_iff])]

example : read ["a.mod", "--tokens", "--ast", "--", "--", "-h"] =
    .ok { files := ["a.mod", "--", "-h"], mode := .ast } := rfl

example : read ["--mod", "--max-nesting=+0", "--def", "-h"] =
    .error (.invalidValue "--max-nesting" "+0") := rfl

end CommandLine

end Modula
