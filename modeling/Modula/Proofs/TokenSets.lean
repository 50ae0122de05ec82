import Mathlib.Data.Finset.Card
import Mathlib.Data.Finset.Disjoint
import Mathlib.Data.Finset.Union
import Mathlib.Data.List.Sort
import Modula.TokenSet

/-!
# Sets of tokens are finite sets

A bitmap is asked for its members in four ways: a bit is tested, the bits are given out from the
lowest one on, they were counted when the bitmap was made, and two bitmaps are compared segment by
segment. All four are about one finite set, that of the tokens whose place has its bit set.
-/

namespace Modula

/-- Above the lowest bit, a number less 1 has the same bits; below it, it has those that the number
has not. So what they have in common are all bits of the number but the lowest. -/
theorem testBit_and_sub_one {n k : Nat} (hlow : n.testBit k = true)
    (hbelow : ∀ j < k, n.testBit j = false) (i : Nat) :
    (n &&& n - 1).testBit i = (n.testBit i && decide (i ≠ k)) := by
  have hmod : n % 2 ^ (k + 1) = 2 ^ k := by
    apply Nat.eq_of_testBit_eq
    intro j
    rw [Nat.testBit_mod_two_pow, Nat.testBit_two_pow]
    rcases Nat.lt_trichotomy j k with hj | rfl | hj
    · simp [hbelow j hj, Nat.ne_of_gt hj]
    · simp [hlow]
    · simp [Nat.ne_of_lt hj, Nat.not_lt.2 (Nat.succ_le_of_lt hj)]
  have hpos := Nat.two_pow_pos k
  have hlt : 2 ^ k < 2 ^ (k + 1) := Nat.pow_lt_pow_right (by decide) (Nat.lt_succ_self k)
  have hn : 2 ^ (k + 1) * (n / 2 ^ (k + 1)) + 2 ^ k = n := hmod ▸ Nat.div_add_mod n (2 ^ (k + 1))
  have hpred : n - 1 = 2 ^ (k + 1) * (n / 2 ^ (k + 1)) + (2 ^ k - 1) := by omega
  have hbit := Nat.testBit_two_pow_mul_add (n / 2 ^ (k + 1)) hlt i
  rw [hn, Nat.testBit_two_pow] at hbit
  have hbit' :=
    Nat.testBit_two_pow_mul_add (n / 2 ^ (k + 1)) (show 2 ^ k - 1 < 2 ^ (k + 1) by omega) i
  rw [← hpred, Nat.testBit_two_pow_sub_one] at hbit'
  rw [Nat.testBit_and, hbit, hbit']
  rcases Nat.lt_trichotomy i k with hi | rfl | hi
  · simp [Nat.lt_succ_of_lt hi, Nat.ne_of_gt hi]
  · simp
  · simp [Nat.not_lt.2 (Nat.succ_le_of_lt hi), Nat.ne_of_gt hi]

namespace TokenBitmap

variable {segments : Nat}

/-! ## The bits of a word -/

theorem getLsbD_and_sub_one {word : BitVec 64} (h : word ≠ 0) (i : Nat) :
    (word &&& word - 1).getLsbD i = (word.getLsbD i && decide (i ≠ word.ctz.toNat)) := by
  have hpos : 0 < word.toNat := Nat.pos_of_ne_zero fun h0 => h (BitVec.eq_of_toNat_eq h0)
  have hsub : (word - 1).toNat = word.toNat - 1 := BitVec.toNat_sub_of_le hpos
  change (word &&& word - 1).toNat.testBit i = _
  rw [BitVec.toNat_and, hsub]
  exact testBit_and_sub_one (BitVec.getLsbD_true_ctz_of_ne_zero h)
    (fun _ hj => BitVec.getLsbD_false_of_lt_ctz hj) i

/-- If a word has no bits below the last `n` ones, then `n` rounds give out all of its bits. -/
theorem lowestBits_eq_filter {n : Nat} {word : BitVec 64}
    (h : ∀ i, word.getLsbD i = true → 64 ≤ n + i) :
    lowestBits n word = (List.range 64).filter word.getLsbD := by
  induction n generalizing word with
  | zero =>
    rw [lowestBits, eq_comm, List.filter_eq_nil_iff]
    intro i hi hbit
    have := h i hbit
    have := List.mem_range.1 hi
    omega
  | succ n ih =>
    rw [lowestBits]
    split
    · next hzero => simp [hzero]
    · next hzero =>
      have hlow := BitVec.getLsbD_true_ctz_of_ne_zero hzero
      have habove : ∀ i, (word &&& word - 1).getLsbD i = true → word.ctz.toNat < i := by
        intro i hi
        rw [getLsbD_and_sub_one hzero, Bool.and_eq_true, decide_eq_true_iff] at hi
        refine Nat.lt_of_le_of_ne (Nat.le_of_not_lt fun hlt => ?_) hi.2.symm
        rw [BitVec.getLsbD_false_of_lt_ctz hlt] at hi
        exact Bool.false_ne_true hi.1
      have hfirst := h _ hlow
      rw [ih fun i hi => by have := habove i hi; omega]
      refine List.Pairwise.eq_of_mem_iff (r := (· < ·)) ?_
        (List.pairwise_lt_range.filter _) fun i => ?_
      · exact List.pairwise_cons.2
          ⟨fun i hi => habove i (List.mem_filter.1 hi).2, List.pairwise_lt_range.filter _⟩
      · rw [List.mem_cons, List.mem_filter, List.mem_filter, getLsbD_and_sub_one hzero]
        by_cases hi : i = word.ctz.toNat
        · simp [hi, hlow, BitVec.lt_of_getLsbD hlow]
        · simp [hi]

theorem lowestBits_sixtyFour (word : BitVec 64) :
    lowestBits 64 word = (List.range 64).filter word.getLsbD :=
  lowestBits_eq_filter fun _ _ => Nat.le_add_right _ _

theorem length_lowestBits (word : BitVec 64) :
    (lowestBits 64 word).length = word.cpop.toNat := by
  have hcount (n : Nat) : word.cpopNatRec n 0 = (List.range n).countP word.getLsbD := by
    induction n with
    | zero => rfl
    | succ n ih =>
      rw [BitVec.cpopNatRec_succ, BitVec.cpopNatRec_eq, ih, List.range_succ, List.countP_append,
        List.countP_singleton]
      cases word.getLsbD n <;> rfl
  rw [lowestBits_sixtyFour, ← List.countP_eq_length_filter, ← hcount, BitVec.toNat_cpop]

theorem mem_lowestBits {word : BitVec 64} {b : Nat} :
    b ∈ lowestBits 64 word ↔ word.getLsbD b = true := by
  rw [lowestBits_sixtyFour, List.mem_filter, List.mem_range]
  exact and_iff_right_of_imp BitVec.lt_of_getLsbD

theorem pairwise_lowestBits (word : BitVec 64) : (lowestBits 64 word).Pairwise (· < ·) := by
  rw [lowestBits_sixtyFour]
  exact List.pairwise_lt_range.filter _

/-! ## The members of a set -/

theorem mem_places {a : TokenBitmap segments} {i : Nat} :
    i ∈ a.places ↔
      ∃ (s : Fin segments) (b : Nat), (a.words.get s).getLsbD b = true ∧ 64 * s.val + b = i := by
  simp only [places, List.mem_flatMap, List.mem_finRange, List.mem_map, mem_lowestBits, true_and]
  exact Iff.rfl

theorem length_places (a : TokenBitmap segments) : a.places.length = a.count := by
  have hwords : a.words.toList = (List.finRange segments).map fun s => a.words[s] := by
    apply List.ext_getElem
    · simp
    · intro i hi hi'
      simp
  have hbits (s : Fin segments) :
      ((lowestBits 64 a.words[s]).map (64 * s.val + ·)).length = a.words[s].cpop.toNat := by
    rw [List.length_map, length_lowestBits]
  rw [a.count_eq, bitCount, hwords, List.foldr_map, places, List.length_flatMap,
    List.sum_eq_foldr, List.foldr_map]
  simp only [hbits]

theorem pairwise_places (a : TokenBitmap segments) : a.places.Pairwise (· < ·) := by
  rw [places, List.pairwise_flatMap]
  constructor
  · intro s _
    rw [List.pairwise_map]
    exact (pairwise_lowestBits _).imp fun h => Nat.add_lt_add_left h _
  · refine (List.pairwise_lt_finRange segments).imp fun {s t} hst i hi j hj => ?_
    obtain ⟨b, hb, rfl⟩ := List.mem_map.1 hi
    obtain ⟨c, -, rfl⟩ := List.mem_map.1 hj
    have hlt : (s : Nat) < t := hst
    have hb := BitVec.lt_of_getLsbD (mem_lowestBits.1 hb)
    omega

/-- Every place is that of a token, so that the members are in the order of their places. -/
theorem map_index_members (a : TokenBitmap segments) : a.members.map Token.index = a.places := by
  have hplaces : ∀ i ∈ a.places, ∃ t : Token, t.index = i := by
    intro i hi
    obtain ⟨s, b, hbit, rfl⟩ := mem_places.1 hi
    exact Token.exists_index_eq (Nat.lt_of_lt_of_le (a.inside s b hbit) capacity_le_count)
  rw [members]
  generalize a.places = places at hplaces ⊢
  induction places with
  | nil => rfl
  | cons i places ih =>
    obtain ⟨⟨t, rfl⟩, hlater⟩ := List.forall_mem_cons.1 hplaces
    rw [List.filterMap_cons, Token.ofIndex?_index, List.map_cons, ih hlater]

theorem mem_members {a : TokenBitmap segments} {t : Token} :
    t ∈ a.members ↔ a.contains t = true := by
  have hindex : t ∈ a.members ↔ t.index ∈ a.places := by
    rw [← map_index_members, List.mem_map]
    simp only [Token.index_inj, exists_eq_right]
  rw [hindex, mem_places]
  constructor
  · rintro ⟨s, b, hbit, ht⟩
    exact (contains_eq_getLsbD a (BitVec.lt_of_getLsbD hbit) ht.symm).trans hbit
  · intro h
    obtain ⟨s, b, hb, ht⟩ := exists_bit (index_lt_capacity_of_contains h)
    exact ⟨s, b, (contains_eq_getLsbD a hb ht).symm.trans h, ht.symm⟩

/-- The members are given out in the order of the vocabulary. -/
theorem pairwise_members (a : TokenBitmap segments) :
    a.members.Pairwise fun t u => t.index < u.index := by
  rw [← List.pairwise_map, map_index_members]
  exact pairwise_places a

theorem length_members (a : TokenBitmap segments) : a.members.length = a.count := by
  rw [← length_places, ← map_index_members, List.length_map]

/-! ## Bitmaps that stand for finite sets -/

/-- A bitmap stands for the finite set of those tokens that it contains. -/
def StandsFor (a : TokenBitmap segments) (M : Finset Token) : Prop :=
  ∀ t, a.contains t = true ↔ t ∈ M

namespace StandsFor

variable {a b : TokenBitmap segments} {M N : Finset Token}

theorem toFinset_members (h : a.StandsFor M) : a.members.toFinset = M := by
  ext t
  rw [List.mem_toFinset, mem_members]
  exact h t

theorem count_eq_card (h : a.StandsFor M) : a.count = M.card := by
  have hdistinct : a.members.Nodup := by
    refine a.pairwise_members.imp fun hlt heq => ?_
    exact Nat.lt_irrefl _ (heq ▸ hlt)
  rw [← length_members, ← h.toFinset_members, List.toFinset_card_of_nodup hdistinct]

theorem isEmpty_iff (h : a.StandsFor M) : a.isEmpty = true ↔ M = ∅ := by
  rw [isEmpty, beq_iff_eq, h.count_eq_card, Finset.card_eq_zero]

theorem eq_iff (ha : a.StandsFor M) (hb : b.StandsFor N) : a = b ↔ M = N := by
  constructor
  · rintro rfl
    rw [← ha.toFinset_members, hb.toFinset_members]
  · rintro rfl
    refine eq_of_contains_eq fun t => ?_
    rw [Bool.eq_iff_iff, ha t, hb t]

theorem isSubsetOf_iff (ha : a.StandsFor M) (hb : b.StandsFor N) :
    a.isSubsetOf b = true ↔ M ⊆ N := by
  rw [TokenBitmap.isSubsetOf_iff]
  exact forall_congr' fun t => imp_congr (ha t) (hb t)

theorem isDisjoint_iff (ha : a.StandsFor M) (hb : b.StandsFor N) :
    a.isDisjoint b = true ↔ Disjoint M N := by
  rw [TokenBitmap.isDisjoint_iff, Finset.disjoint_left]
  exact forall_congr' fun t => imp_congr (ha t) (not_congr (hb t))

end StandsFor

/-! ## The sets that can be made -/

/-- A way to make a set: from listed tokens or places, with a further token, or as the union of
sets that are made in such ways. -/
inductive Construction where
  | empty
  | ofList (tokens : List Token)
  | ofIndices (places : List Nat)
  | insert (t : Token) (set : Construction)
  | union (left right : Construction)
  | unionOf (sets : List Construction)

namespace Construction

mutual

/-- The bitmap that is made. -/
def build (segments : Nat) : Construction → TokenBitmap segments
  | empty => ∅
  | ofList tokens => .ofList tokens
  | ofIndices places => .ofIndices places
  | insert t set => (set.build segments).insert t
  | union left right => left.build segments ∪ right.build segments
  | unionOf sets => .unionOf (buildAll segments sets)

def buildAll (segments : Nat) : List Construction → List (TokenBitmap segments)
  | [] => []
  | set :: sets => set.build segments :: buildAll segments sets

end

mutual

/-- The tokens that are named on the way, whether or not there is room for them. -/
def named : Construction → Finset Token
  | empty => ∅
  | ofList tokens => tokens.toFinset
  | ofIndices places => Token.all.toFinset.filter (·.index ∈ places)
  | insert t set => set.named ∪ {t}
  | union left right => left.named ∪ right.named
  | unionOf sets => namedByAny sets

def namedByAny : List Construction → Finset Token
  | [] => ∅
  | set :: sets => set.named ∪ namedByAny sets

end

/-- The named tokens for which so many segments have room. -/
def tokens (segments : Nat) (c : Construction) : Finset Token :=
  c.named.filter (·.index < capacity segments)

variable {segments : Nat}

theorem mem_tokens {c : Construction} {t : Token} :
    t ∈ c.tokens segments ↔ t ∈ c.named ∧ t.index < capacity segments := Finset.mem_filter

mutual

theorem standsFor_build : ∀ c : Construction, (c.build segments).StandsFor (c.tokens segments)
  | empty => fun t => by
    simp [build, mem_tokens, named]
  | ofList tokens => fun t => by
    rw [build, TokenBitmap.ofList, contains_ofIndices, decide_eq_true_iff, mem_tokens, named,
      List.mem_toFinset, and_comm, List.mem_map]
    simp only [Token.index_inj, exists_eq_right]
  | ofIndices places => fun t => by
    rw [build, contains_ofIndices, decide_eq_true_iff, mem_tokens, named, Finset.mem_filter,
      List.mem_toFinset, and_iff_right t.mem_all, and_comm]
  | insert t set => fun u => by
    rw [build, contains_insert, Bool.or_eq_true, decide_eq_true_iff, standsFor_build set u,
      mem_tokens, mem_tokens, named, Finset.mem_union, Finset.mem_singleton]
    constructor
    · rintro (⟨hu, hlt⟩ | ⟨hlt, rfl⟩)
      · exact ⟨.inl hu, hlt⟩
      · exact ⟨.inr rfl, hlt⟩
    · rintro ⟨hu | rfl, hlt⟩
      · exact .inl ⟨hu, hlt⟩
      · exact .inr ⟨hlt, rfl⟩
  | union left right => fun t => by
    rw [build, contains_union, Bool.or_eq_true, standsFor_build left t, standsFor_build right t,
      mem_tokens, mem_tokens, mem_tokens, named, Finset.mem_union, or_and_right]
  | unionOf sets => fun t => by
    rw [build, contains_unionOf, any_contains_buildAll sets t, mem_tokens, named]

theorem any_contains_buildAll : ∀ (sets : List Construction) (t : Token),
    (buildAll segments sets).any (·.contains t) = true ↔
      t ∈ namedByAny sets ∧ t.index < capacity segments
  | [], t => by simp [buildAll, namedByAny]
  | set :: sets, t => by
    rw [buildAll, List.any_cons, Bool.or_eq_true, standsFor_build set t,
      any_contains_buildAll sets t, mem_tokens, namedByAny, Finset.mem_union, or_and_right]

end

end Construction

/-! ## Main result -/

/-- What is asked of a bitmap alone is answered for a finite set: membership, the members from the
lowest to the highest, how many there are and whether there is one. -/
structure AnswersFor (a : TokenBitmap segments) (M : Finset Token) : Prop where
  contains_iff : ∀ t, a.contains t = true ↔ t ∈ M
  mem_members_iff : ∀ t, t ∈ a.members ↔ t ∈ M
  ascending : a.members.Pairwise fun t u => t.index < u.index
  count_eq_card : a.count = M.card
  isEmpty_iff : a.isEmpty = true ↔ M = ∅

/-- What is asked of two bitmaps is answered for two finite sets. -/
structure ComparesLike (a b : TokenBitmap segments) (M N : Finset Token) : Prop where
  beq_iff : (a == b) = true ↔ M = N
  isSubsetOf_iff : a.isSubsetOf b = true ↔ M ⊆ N
  isSupersetOf_iff : a.isSupersetOf b = true ↔ N ⊆ M
  isDisjoint_iff : a.isDisjoint b = true ↔ M ∩ N = ∅

/-- The laws of a union, as equations between bitmaps. -/
structure UnionLaws (segments : Nat) : Prop where
  comm : ∀ a b : TokenBitmap segments, a ∪ b = b ∪ a
  assoc : ∀ a b c : TokenBitmap segments, a ∪ b ∪ c = a ∪ (b ∪ c)
  idem : ∀ a : TokenBitmap segments, a ∪ a = a
  empty_left : ∀ a : TokenBitmap segments, ∅ ∪ a = a
  empty_right : ∀ a : TokenBitmap segments, a ∪ ∅ = a

theorem StandsFor.answersFor {a : TokenBitmap segments} {M : Finset Token} (h : a.StandsFor M) :
    a.AnswersFor M where
  contains_iff := h
  mem_members_iff t := mem_members.trans (h t)
  ascending := pairwise_members a
  count_eq_card := h.count_eq_card
  isEmpty_iff := h.isEmpty_iff

theorem StandsFor.comparesLike {a b : TokenBitmap segments} {M N : Finset Token}
    (ha : a.StandsFor M) (hb : b.StandsFor N) : ComparesLike a b M N where
  beq_iff := beq_iff_eq.trans (ha.eq_iff hb)
  isSubsetOf_iff := ha.isSubsetOf_iff hb
  isSupersetOf_iff := hb.isSubsetOf_iff ha
  isDisjoint_iff := by rw [ha.isDisjoint_iff hb, Finset.disjoint_iff_inter_eq_empty]

theorem unionLaws (segments : Nat) : UnionLaws segments where
  comm a b := eq_of_contains_eq fun t => by
    rw [contains_union, contains_union, Bool.or_comm]
  assoc a b c := eq_of_contains_eq fun t => by
    simp only [contains_union, Bool.or_assoc]
  idem a := eq_of_contains_eq fun t => by
    rw [contains_union, Bool.or_self]
  empty_left a := eq_of_contains_eq fun t => by
    rw [contains_union, contains_empty, Bool.false_or]
  empty_right a := eq_of_contains_eq fun t => by
    rw [contains_union, contains_empty, Bool.or_false]

/-- However bitmaps of so many segments were made, they answer and compare as the sets of those
named tokens for which there is room; and their unions obey the laws of unions. -/
theorem bitmaps_are_finite_sets (segments : Nat) :
    (∀ c : Construction, (c.build segments).AnswersFor (c.tokens segments)) ∧
    (∀ c d : Construction, ComparesLike (c.build segments) (d.build segments)
      (c.tokens segments) (d.tokens segments)) ∧
    UnionLaws segments := by
  refine ⟨fun c => ?_, fun c d => ?_, unionLaws segments⟩
  · exact c.standsFor_build.answersFor
  · exact c.standsFor_build.comparesLike d.standsFor_build

/-- One segment has no room for the token of place 64. -/
example : ((Construction.ofIndices [63, 5, 64, 5]).build 1).members.map Token.index = [5, 63] := by
  decide +kernel

end TokenBitmap

end Modula
