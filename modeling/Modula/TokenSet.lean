import Modula.Token

/-!
# Sets of tokens

A set of tokens is a bitmap over the places of the vocabulary, cut into segments of 64 bits.
The number of segments is a parameter: a bitmap too short for the vocabulary holds the tokens it
has room for and silently leaves out the others. The grammar uses `TokenSet`, which has room for
every token.

The bits are counted when a set is made, and their number is kept with them. The bitmap never has a
bit beyond its room, so two sets are equal when they have the same members.
-/

namespace Modula

/-- How many places a bitmap of so many 64-bit segments has for tokens. -/
def TokenBitmap.capacity (segments : Nat) : Nat := min (64 * segments) Token.count

/-- The number of bits that are set in some words. -/
def TokenBitmap.bitCount {segments : Nat} (words : Vector (BitVec 64) segments) : Nat :=
  words.toList.foldr (fun word n => word.cpop.toNat + n) 0

/-- A set of tokens as a bitmap of 64-bit segments. -/
structure TokenBitmap (segments : Nat) where
  words : Vector (BitVec 64) segments
  /-- The number of members. -/
  count : Nat
  count_eq : count = TokenBitmap.bitCount words
  inside : ∀ (s : Fin segments) (b : Nat), words[s].getLsbD b = true →
    64 * s + b < TokenBitmap.capacity segments
deriving DecidableEq

/-- The number of segments that the whole vocabulary needs. -/
def tokenSegments : Nat := (Token.count + 63) / 64

/-- A set of tokens with room for the whole vocabulary. -/
abbrev TokenSet := TokenBitmap tokenSegments

namespace TokenBitmap

variable {segments : Nat}

theorem capacity_le_count : capacity segments ≤ Token.count := Nat.min_le_right _ _

theorem div_lt_of_lt_capacity {i : Nat} (h : i < capacity segments) : i / 64 < segments :=
  Nat.div_lt_of_lt_mul (Nat.lt_of_lt_of_le h (Nat.min_le_left _ _))

/-- The set whose bits are those of some words. -/
def ofWords (words : Vector (BitVec 64) segments)
    (inside : ∀ (s : Fin segments) (b : Nat), words[s].getLsbD b = true →
      64 * s + b < capacity segments) : TokenBitmap segments :=
  ⟨words, bitCount words, rfl, inside⟩

/-- The set without members. -/
def empty : TokenBitmap segments where
  words := Vector.replicate segments 0
  count := 0
  count_eq := by
    rw [bitCount, Vector.toList_replicate]
    induction segments with
    | zero => rfl
    | succ n ih =>
      rw [List.replicate_succ, List.foldr_cons, ← ih]
      simp
  inside := by simp

instance : EmptyCollection (TokenBitmap segments) := ⟨empty⟩
instance : Inhabited (TokenBitmap segments) := ⟨empty⟩

/-! ## The sets that are made of other sets and of places -/

/-- The word of a segment with the bit of place `i` set as well, if `i` is a place of the segment
and there is room for it. -/
def mark (s : Fin segments) (word : BitVec 64) (i : Nat) : BitVec 64 :=
  if i < capacity segments ∧ i / 64 = s then word ||| BitVec.twoPow 64 (i % 64) else word

theorem getLsbD_mark (s : Fin segments) (word : BitVec 64) (i : Nat) {b : Nat} (hb : b < 64) :
    (mark s word i).getLsbD b =
      (word.getLsbD b || decide (i < capacity segments ∧ i = 64 * s + b)) := by
  unfold mark
  split
  · next h =>
    have hbit : (decide (i % 64 < 64) && decide (i % 64 = b)) = decide (i = 64 * s + b) := by
      rw [Bool.eq_iff_iff, Bool.and_eq_true, decide_eq_true_iff, decide_eq_true_iff,
        decide_eq_true_iff]
      omega
    rw [BitVec.getLsbD_or, BitVec.getLsbD_twoPow, hbit, decide_eq_decide.2 (and_iff_right h.1)]
  · next h =>
    rw [decide_eq_false fun hi => h ⟨hi.1, by omega⟩, Bool.or_false]

theorem getLsbD_foldl_mark (s : Fin segments) (places : List Nat) (word : BitVec 64) {b : Nat}
    (hb : b < 64) : (places.foldl (mark s) word).getLsbD b =
      (word.getLsbD b || decide (64 * s + b < capacity segments ∧ 64 * s + b ∈ places)) := by
  induction places generalizing word with
  | nil => simp
  | cons i places ih =>
    rw [List.foldl_cons, ih, getLsbD_mark s word i hb, Bool.or_assoc, ← Bool.decide_or]
    congr 1
    rw [decide_eq_decide, List.mem_cons]
    constructor
    · rintro (⟨h, rfl⟩ | ⟨h, hi⟩)
      · exact ⟨h, .inl rfl⟩
      · exact ⟨h, .inr hi⟩
    · rintro ⟨h, rfl | hi⟩
      · exact .inl ⟨h, rfl⟩
      · exact .inr ⟨h, hi⟩

theorem getLsbD_foldl_or (s : Fin segments) (sets : List (TokenBitmap segments))
    (word : BitVec 64) (b : Nat) :
    (sets.foldl (fun word a => word ||| a.words[s]) word).getLsbD b =
      (word.getLsbD b || sets.any fun a => a.words[s].getLsbD b) := by
  induction sets generalizing word with
  | nil => simp
  | cons a sets ih => rw [List.foldl_cons, ih, BitVec.getLsbD_or, Bool.or_assoc, List.any_cons]

/-- The members of any of the sets. -/
def unionOf (sets : List (TokenBitmap segments)) : TokenBitmap segments :=
  ofWords (Vector.ofFn fun s => sets.foldl (fun word a => word ||| a.words[s]) 0) fun s b h => by
    rw [Fin.getElem_fin, Vector.getElem_ofFn, getLsbD_foldl_or] at h
    obtain ⟨a, -, ha⟩ := List.any_eq_true.1 ((Bool.or_eq_true_iff.1 h).resolve_left (by simp))
    exact a.inside s b ha

/-- All members of either set. -/
def union (a b : TokenBitmap segments) : TokenBitmap segments := unionOf [a, b]

instance : Union (TokenBitmap segments) := ⟨union⟩

/-- The tokens at the given places; places outside the vocabulary are left out. -/
def ofIndices (places : List Nat) : TokenBitmap segments :=
  ofWords (Vector.ofFn fun s => places.foldl (mark s) 0) fun s b h => by
    have hb := BitVec.lt_of_getLsbD h
    rw [Fin.getElem_fin, Vector.getElem_ofFn, getLsbD_foldl_mark s places 0 hb] at h
    exact (of_decide_eq_true ((Bool.or_eq_true_iff.1 h).resolve_left (by simp))).1

/-- The set of the listed tokens. -/
def ofList (tokens : List Token) : TokenBitmap segments :=
  ofIndices (tokens.map Token.index)

/-- The set with one more member. -/
def insert (t : Token) (a : TokenBitmap segments) : TokenBitmap segments :=
  ofWords (Vector.ofFn fun s => mark s a.words[s] t.index) fun s b h => by
    have hb := BitVec.lt_of_getLsbD h
    rw [Fin.getElem_fin, Vector.getElem_ofFn, getLsbD_mark s _ _ hb] at h
    rcases Bool.or_eq_true_iff.1 h with h | h
    · exact a.inside s b h
    · obtain ⟨hlt, heq⟩ := of_decide_eq_true h
      exact heq ▸ hlt

instance : Insert Token (TokenBitmap segments) := ⟨insert⟩

/-- The set with one member. -/
instance : Singleton Token (TokenBitmap segments) := ⟨fun t => ofList [t]⟩

/-! ## What is asked of sets -/

/-- Membership. -/
def contains (a : TokenBitmap segments) (t : Token) : Bool :=
  if h : t.index < capacity segments then
    have := div_lt_of_lt_capacity h
    a.words[t.index / 64] &&& BitVec.twoPow 64 (t.index % 64) != 0
  else false

instance : Membership Token (TokenBitmap segments) := ⟨fun s t => s.contains t = true⟩

instance (t : Token) (s : TokenBitmap segments) : Decidable (t ∈ s) :=
  inferInstanceAs (Decidable (s.contains t = true))

/-- The places of at most `n` bits of a word: the lowest bit that is set is taken and cleared, as
long as there is one. -/
def lowestBits : Nat → BitVec 64 → List Nat
  | 0, _ => []
  | n + 1, word => if word = 0 then [] else word.ctz.toNat :: lowestBits n (word &&& word - 1)

/-- The places of the bits of all segments, in ascending order. -/
def places (a : TokenBitmap segments) : List Nat :=
  (List.finRange segments).flatMap fun s => (lowestBits 64 a.words[s]).map (64 * s.val + ·)

/-- The members, in the order of the vocabulary. -/
def members (a : TokenBitmap segments) : List Token := a.places.filterMap Token.ofIndex?

/-- There is no member. -/
def isEmpty (a : TokenBitmap segments) : Bool := a.count == 0

/-- Every member of `a` is one of `b`. -/
def isSubsetOf (a b : TokenBitmap segments) : Bool :=
  ∀ s : Fin segments, a.words[s] &&& b.words[s] = a.words[s]

/-- Every member of `b` is one of `a`. -/
def isSupersetOf (a b : TokenBitmap segments) : Bool := b.isSubsetOf a

/-- No token is a member of both. -/
def isDisjoint (a b : TokenBitmap segments) : Bool :=
  ∀ s : Fin segments, a.words[s] &&& b.words[s] = 0

/-- The members by name, in braces. -/
def toText (s : TokenBitmap segments) : String :=
  match s.members with
  | [] => "\x7b \x7d"
  | members => "\x7b " ++ ", ".intercalate (members.map Token.name) ++ " \x7d"

instance : ToString (TokenBitmap segments) := ⟨toText⟩

/-- The members as a message lists them: separated by commas, with an "or" before the last. -/
def phrase (s : TokenBitmap segments) : String :=
  let texts := s.members.map Token.describe
  match texts.getLast? with
  | none => "nothing"
  | some last =>
    match texts.dropLast with
    | [] => last
    | firsts => ", ".intercalate firsts ++ " or " ++ last

/-! ## Membership in the sets that the operations make -/

theorem contains_of_not_lt {t : Token} (h : ¬t.index < capacity segments)
    (a : TokenBitmap segments) : a.contains t = false := by
  rw [contains, dif_neg h]

/-- A token with no place in the bitmap is never a member. -/
theorem index_lt_capacity_of_contains {a : TokenBitmap segments} {t : Token}
    (h : a.contains t = true) : t.index < capacity segments := by
  apply Decidable.byContradiction
  intro hlt
  exact Bool.false_ne_true ((contains_of_not_lt hlt a).symm.trans h)

theorem and_twoPow_bne_zero (word : BitVec 64) {b : Nat} (hb : b < 64) :
    (word &&& BitVec.twoPow 64 b != 0) = word.getLsbD b := by
  have hone : BitVec.twoPow 64 b ≠ 0#64 := by
    intro h
    have hbit := congrArg (·.getLsbD b) h
    simp [hb] at hbit
  rw [BitVec.and_twoPow]
  cases word.getLsbD b <;> simp [hone]

/-- A token is a member if the bit at its place is set. -/
theorem contains_eq_getLsbD (a : TokenBitmap segments) {t : Token} {s : Fin segments} {b : Nat}
    (hb : b < 64) (ht : t.index = 64 * s + b) : a.contains t = a.words[s].getLsbD b := by
  have hs : t.index / 64 = s := by omega
  have hmod : t.index % 64 = b := by omega
  by_cases hlt : t.index < capacity segments
  · rw [contains, dif_pos hlt]
    simp only [hs, hmod, and_twoPow_bne_zero _ hb, Fin.getElem_fin]
  · rw [contains_of_not_lt hlt]
    exact (Bool.eq_false_iff.2 fun h => hlt (ht ▸ a.inside s b h)).symm

/-- A token that there is room for has its bit in one of the words. -/
theorem exists_bit {t : Token} (h : t.index < capacity segments) :
    ∃ (s : Fin segments) (b : Nat), b < 64 ∧ t.index = 64 * s + b :=
  ⟨⟨t.index / 64, div_lt_of_lt_capacity h⟩, t.index % 64, Nat.mod_lt _ (by decide),
    (Nat.div_add_mod _ _).symm⟩

theorem contains_unionOf (sets : List (TokenBitmap segments)) (t : Token) :
    (unionOf sets).contains t = sets.any (·.contains t) := by
  by_cases hlt : t.index < capacity segments
  · obtain ⟨s, b, hb, ht⟩ := exists_bit hlt
    rw [contains_eq_getLsbD _ hb ht, unionOf, ofWords, Fin.getElem_fin, Vector.getElem_ofFn,
      getLsbD_foldl_or]
    simp only [contains_eq_getLsbD _ hb ht]
    simp
  · rw [contains_of_not_lt hlt]
    exact (List.any_eq_false.2 fun a _ => by simp [contains_of_not_lt hlt]).symm

theorem contains_ofIndices (places : List Nat) (t : Token) :
    (ofIndices places : TokenBitmap segments).contains t =
      decide (t.index < capacity segments ∧ t.index ∈ places) := by
  by_cases hlt : t.index < capacity segments
  · obtain ⟨s, b, hb, ht⟩ := exists_bit hlt
    rw [contains_eq_getLsbD _ hb ht, ofIndices, ofWords, Fin.getElem_fin, Vector.getElem_ofFn,
      getLsbD_foldl_mark s places 0 hb, ← ht]
    simp
  · rw [contains_of_not_lt hlt, decide_eq_false fun h => hlt h.1]

@[simp]
theorem contains_empty (t : Token) : (∅ : TokenBitmap segments).contains t = false := by
  by_cases hlt : t.index < capacity segments
  · obtain ⟨s, b, hb, ht⟩ := exists_bit hlt
    rw [contains_eq_getLsbD _ hb ht]
    change (Vector.replicate segments (0 : BitVec 64))[s].getLsbD b = false
    simp
  · exact contains_of_not_lt hlt _

@[simp]
theorem contains_union (a b : TokenBitmap segments) (t : Token) :
    (a ∪ b).contains t = (a.contains t || b.contains t) := by
  change (unionOf [a, b]).contains t = _
  rw [contains_unionOf, List.any_cons, List.any_cons, List.any_nil, Bool.or_false]

theorem mem_union {a b : TokenBitmap segments} {t : Token} : t ∈ a ∪ b ↔ t ∈ a ∨ t ∈ b := by
  change (a ∪ b).contains t = true ↔ a.contains t = true ∨ b.contains t = true
  rw [contains_union, Bool.or_eq_true]

theorem contains_insert (s : TokenBitmap segments) (t u : Token) :
    (s.insert t).contains u =
      (s.contains u || decide (t.index < capacity segments ∧ t = u)) := by
  by_cases hlt : u.index < capacity segments
  · obtain ⟨i, b, hb, hu⟩ := exists_bit hlt
    rw [contains_eq_getLsbD _ hb hu, contains_eq_getLsbD _ hb hu, insert, ofWords,
      Fin.getElem_fin, Vector.getElem_ofFn, getLsbD_mark i _ _ hb, ← hu]
    simp only [Token.index_inj]
  · rw [contains_of_not_lt hlt, contains_of_not_lt hlt, Bool.false_or,
      decide_eq_false]
    rintro ⟨ht, rfl⟩
    exact hlt ht

theorem mem_insert {s : TokenBitmap tokenSegments} {t u : Token} :
    u ∈ s.insert t ↔ u ∈ s ∨ u = t := by
  change (s.insert t).contains u = true ↔ s.contains u = true ∨ u = t
  have ht : t.index < capacity tokenSegments := t.index_lt_count
  rw [contains_insert, Bool.or_eq_true, decide_eq_true_iff]
  exact or_congr_right ⟨fun h => h.2.symm, fun h => ⟨ht, h.symm⟩⟩

/-- The members of a listed set are the listed tokens. -/
theorem mem_ofList {ts : List Token} {t : Token} :
    t ∈ (ofList ts : TokenBitmap tokenSegments) ↔ t ∈ ts := by
  change (ofList ts : TokenBitmap tokenSegments).contains t = true ↔ t ∈ ts
  have ht : t.index < capacity tokenSegments := t.index_lt_count
  rw [ofList, contains_ofIndices, decide_eq_true_iff, and_iff_right ht, List.mem_map]
  simp only [Token.index_inj, exists_eq_right]

/-- Relations of sets are relations of their bits. -/
theorem isSubsetOf_iff {a b : TokenBitmap segments} :
    a.isSubsetOf b = true ↔ ∀ t ∈ a, t ∈ b := by
  rw [isSubsetOf, decide_eq_true_iff]
  constructor
  · intro h t ht
    obtain ⟨s, i, hi, hplace⟩ := exists_bit (index_lt_capacity_of_contains ht)
    have hbit := congrArg (·.getLsbD i) (h s)
    change a.contains t = true at ht
    rw [contains_eq_getLsbD a hi hplace] at ht
    simp only [BitVec.getLsbD_and, ht, Bool.true_and] at hbit
    exact (contains_eq_getLsbD b hi hplace).trans hbit
  · intro h s
    apply BitVec.eq_of_getLsbD_eq
    intro i hi
    rw [BitVec.getLsbD_and]
    cases hbit : a.words[s].getLsbD i with
    | false => rfl
    | true =>
      obtain ⟨t, ht⟩ := Token.exists_index_eq
        (Nat.lt_of_lt_of_le (a.inside s i hbit) capacity_le_count)
      rw [Bool.true_and, ← contains_eq_getLsbD b hi ht]
      exact h t ((contains_eq_getLsbD a hi ht).trans hbit)

theorem isDisjoint_iff {a b : TokenBitmap segments} :
    a.isDisjoint b = true ↔ ∀ t ∈ a, t ∉ b := by
  rw [isDisjoint, decide_eq_true_iff]
  constructor
  · intro h t ht hb
    obtain ⟨s, i, hi, hplace⟩ := exists_bit (index_lt_capacity_of_contains ht)
    have hbit := congrArg (·.getLsbD i) (h s)
    change a.contains t = true at ht
    change b.contains t = true at hb
    rw [contains_eq_getLsbD a hi hplace] at ht
    rw [contains_eq_getLsbD b hi hplace] at hb
    simp only [BitVec.getLsbD_and, ht, hb, Bool.true_and] at hbit
    simp at hbit
  · intro h s
    apply BitVec.eq_of_getLsbD_eq
    intro i hi
    rw [BitVec.getLsbD_and]
    cases hbit : a.words[s].getLsbD i with
    | false => simp
    | true =>
      obtain ⟨t, ht⟩ := Token.exists_index_eq
        (Nat.lt_of_lt_of_le (a.inside s i hbit) capacity_le_count)
      have hb : ¬b.contains t = true := h t ((contains_eq_getLsbD a hi ht).trans hbit)
      rw [contains_eq_getLsbD b hi ht] at hb
      simpa using hb

/-- Sets with the same members are equal. -/
theorem eq_of_contains_eq {a b : TokenBitmap segments}
    (h : ∀ t, a.contains t = b.contains t) : a = b := by
  have hwords : a.words = b.words := by
    apply Vector.ext
    intro s hs
    apply BitVec.eq_of_getLsbD_eq
    intro i hi
    change a.words[(⟨s, hs⟩ : Fin segments)].getLsbD i = b.words[(⟨s, hs⟩ : Fin segments)].getLsbD i
    by_cases hlt : 64 * s + i < capacity segments
    · obtain ⟨t, ht⟩ := Token.exists_index_eq (Nat.lt_of_lt_of_le hlt capacity_le_count)
      rw [← contains_eq_getLsbD a hi ht, ← contains_eq_getLsbD b hi ht, h]
    · rw [Bool.eq_false_iff.2 fun h => hlt (a.inside _ i h),
        Bool.eq_false_iff.2 fun h => hlt (b.inside _ i h)]
  obtain ⟨words, count, hcount, _⟩ := a
  obtain ⟨words', count', hcount', _⟩ := b
  cases hwords
  cases hcount
  cases hcount'
  rfl

end TokenBitmap

end Modula
