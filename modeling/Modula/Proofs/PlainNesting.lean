import Modula.Proofs.Arrivals

/-!
# Comments nest plainly

The end of a block comment is found with two counters, of which the first stops at the number of
levels that are meant to be used. Plain nesting has one counter without a limit: a text is read into
pairs `(*` and `*)`, which count 1 and -1, and a comment ends where the count is back at 0. The two
agree on where a comment ends, and the report of too many levels is about the one count as well.
-/

namespace Modula.Comment

/-! ## Counting pairs -/

/-- What a text is read as where only comments count. -/
inductive Mark where
  | opener
  | closer
  | other (c : Char)
deriving DecidableEq, Repr

/-- The characters that are read as a mark. -/
def Mark.text : Mark → List Char
  | opener => ['(', '*']
  | closer => ['*', ')']
  | other c => [c]

/-- What a mark adds to the count. -/
def Mark.value : Mark → Int
  | opener => 1
  | closer => -1
  | other _ => 0

/-- Reads a text from left to right into pairs that do not overlap, and what is between them. -/
def marks : List Char → List Mark
  | '(' :: '*' :: cs => .opener :: marks cs
  | '*' :: ')' :: cs => .closer :: marks cs
  | c :: cs => .other c :: marks cs
  | [] => []

/-- The characters that are read as some marks. -/
def textOf (ms : List Mark) : List Char := ms.flatMap Mark.text

/-- The openers less the closers. -/
def count : List Mark → Int
  | [] => 0
  | m :: ms => m.value + count ms

/-- From a level on the count is back at 0 behind `n` marks, and not earlier. -/
structure Returns (level : Int) (ms : List Mark) (n : Nat) : Prop where
  pos : 0 < n
  le : n ≤ ms.length
  zero : level + count (ms.take n) = 0
  first : ∀ m, 0 < m → m < n → level + count (ms.take m) ≠ 0

/-- The report of the first opener that makes the count exceed 10, if there is one among the marks
of a text that stands at a position. -/
inductive TooDeep (level : Int) (p : Position) (ms : List Mark) : List Diagnostic → Prop
  | never (h : ∀ m, m ≤ ms.length → level + count (ms.take m) ≤ 10) : TooDeep level p ms []
  | once {m : Nat} (hopener : ms[m]? = some .opener) (hcount : level + count (ms.take (m + 1)) = 11)
    (hfirst : ∀ l, l ≤ m → level + count (ms.take l) ≤ 10) :
    TooDeep level p ms [.ofPosition .commentTooDeep (p.after (textOf (ms.take m)))]

theorem textOf_cons (m : Mark) (ms : List Mark) : textOf (m :: ms) = m.text ++ textOf ms :=
  List.flatMap_cons

@[simp]
theorem count_nil : count [] = 0 := rfl

@[simp]
theorem count_cons (m : Mark) (ms : List Mark) : count (m :: ms) = m.value + count ms := rfl

/-- No character is lost or read twice. -/
theorem textOf_marks (cs : List Char) : textOf (marks cs) = cs := by
  fun_induction marks cs with
  | case1 cs ih | case2 cs ih | case3 c cs _ _ ih => rw [textOf_cons, ih]; rfl
  | case4 => rfl

theorem textOf_append (ms ns : List Mark) : textOf (ms ++ ns) = textOf ms ++ textOf ns :=
  List.flatMap_append

/-! ## One mark -/

section

variable {level level' : Int} {m : Mark} {ms : List Mark} {n : Nat} {p : Position}

/-- The count is back at 0 behind the first mark. -/
theorem Returns.here (h : level + m.value = 0) : Returns level (m :: ms) 1 where
  pos := Nat.one_pos
  le := Nat.succ_le_succ (Nat.zero_le _)
  zero := by simpa using h
  first := fun l hpos hlt => by omega

theorem returns_succ_iff (h : level + m.value ≠ 0) :
    Returns level (m :: ms) (n + 1) ↔ Returns (level + m.value) ms n := by
  constructor
  · rintro ⟨-, hle, hzero, hfirst⟩
    rw [List.take_succ_cons, count_cons, ← Int.add_assoc] at hzero
    refine ⟨Nat.pos_of_ne_zero ?_, Nat.le_of_succ_le_succ hle, hzero, fun l _ hlt => ?_⟩
    · rintro rfl
      exact h (by simpa using hzero)
    · have hne := hfirst (l + 1) (Nat.succ_pos l) (Nat.succ_lt_succ hlt)
      rwa [List.take_succ_cons, count_cons, ← Int.add_assoc] at hne
  · rintro ⟨-, hle, hzero, hfirst⟩
    refine ⟨Nat.succ_pos n, Nat.succ_le_succ hle, ?_, fun l hpos hlt => ?_⟩
    · rwa [List.take_succ_cons, count_cons, ← Int.add_assoc]
    · obtain ⟨l, rfl⟩ := Nat.exists_eq_add_one_of_ne_zero (Nat.ne_of_gt hpos)
      rw [List.take_succ_cons, count_cons, ← Int.add_assoc]
      rcases Nat.eq_zero_or_pos l with rfl | hl
      · simpa using h
      · exact hfirst l hl (Nat.lt_of_succ_lt_succ hlt)

/-- The marks of a comment from a level on, and whether it has an end. -/
inductive Spans (level : Int) (ms : List Mark) : Bool → List Mark → Prop
  | closed {n : Nat} (h : Returns level ms n) : Spans level ms true (ms.take n)
  | unclosed (h : ∀ n, ¬ Returns level ms n) : Spans level ms false ms

theorem Spans.step {closed : Bool} {us : List Mark} (h : Spans level' ms closed us)
    (hlevel : level' = level + m.value) (hne : level' ≠ 0) :
    Spans level (m :: ms) closed (m :: us) := by
  subst hlevel
  cases h with
  | @closed n h =>
    rw [← List.take_succ_cons]
    exact .closed ((returns_succ_iff hne).2 h)
  | unclosed h =>
    refine .unclosed fun n hn => ?_
    obtain ⟨l, rfl⟩ := Nat.exists_eq_add_one_of_ne_zero (Nat.ne_of_gt hn.pos)
    exact h l ((returns_succ_iff hne).1 hn)

theorem Spans.prefix {closed : Bool} {us : List Mark} (h : Spans level ms closed us) :
    us <+: ms := by
  cases h with
  | closed h => exact List.take_prefix _ _
  | unclosed h => exact List.prefix_refl ms

theorem TooDeep.step {ds : List Diagnostic} (hten : level ≤ 10)
    (h : TooDeep (level + m.value) (p.after m.text) ms ds) : TooDeep level p (m :: ms) ds := by
  have hcount (l : Nat) : level + count ((m :: ms).take (l + 1)) =
      level + m.value + count (ms.take l) := by
    rw [List.take_succ_cons, count_cons, Int.add_assoc]
  cases h with
  | never h =>
    refine .never fun l hl => ?_
    cases l with
    | zero => simpa using hten
    | succ l => exact (hcount l).symm ▸ h l (Nat.le_of_succ_le_succ hl)
  | @once l hopener heleven hfirst =>
    rw [← Position.after_append, ← textOf_cons, ← List.take_succ_cons]
    have hopener' : (m :: ms)[l + 1]? = some .opener := by simpa using hopener
    refine .once hopener' ((hcount (l + 1)).trans heleven) fun i hi => ?_
    cases i with
    | zero => simpa using hten
    | succ i => exact (hcount i).symm ▸ hfirst i (Nat.le_of_succ_le_succ hi)

/-- The eleventh level. -/
theorem TooDeep.here (hlevel : level = 10) :
    TooDeep level p (.opener :: ms) [.ofPosition .commentTooDeep p] := by
  refine .once (m := 0) rfl (by simp [hlevel, Mark.value]) fun l hl => ?_
  rw [Nat.le_zero.1 hl, hlevel]
  exact Int.le_refl _

end

/-! ## Whole comments -/

/-- The opener that was found too deep is the one that plain nesting reports. -/
def Deepens (level : Int) (n : Nat) (cs : List Char) (us : List Mark) (found : Option Nat) : Prop :=
  ∃ t : Option Nat, found = t.map (n + ·) ∧ ∀ p, TooDeep level p us (deepReport p cs t)

theorem Deepens.step {level level' : Int} {n : Nat} {cs : List Char} {us : List Mark}
    {found : Option Nat} (m : Mark) (h : Deepens level' (n + m.text.length) cs us found)
    (hlevel : level' = level + m.value) (hten : level ≤ 10) :
    Deepens level n (m.text ++ cs) (m :: us) found := by
  subst hlevel
  obtain ⟨t, hfound, hdeep⟩ := h
  refine ⟨t.map (m.text.length + ·), ?_, fun p => ?_⟩
  · rw [hfound, Option.map_map]
    exact congrArg (Option.map · t) (funext fun l => Nat.add_assoc _ _ l)
  · have hreport : deepReport p (m.text ++ cs) (t.map (m.text.length + ·)) =
        deepReport (p.after m.text) cs t := by
      cases t with
      | none => rfl
      | some l =>
        rw [Option.map_some, deepReport, deepReport, List.take_length_add_append,
          Position.after_append]
    rw [hreport]
    exact (hdeep _).step hten

/-- An opener that was found too deep stays the one that is reported. -/
theorem tooDeep_extent_some (depth ignored n l : Nat) (cs : List Char) :
    (extent depth ignored n (some l) cs).tooDeep = some l := by
  generalize htooDeep : some l = tooDeep
  fun_induction extent depth ignored n tooDeep cs with
  | case1 _ _ _ _ _ _ ih | case3 _ _ _ _ _ _ ih | case5 _ _ _ _ _ _ _ ih
  | case6 _ _ _ _ _ _ _ _ ih => exact ih htooDeep
  | case2 _ _ _ _ _ _ ih => exact (ih (by rw [← htooDeep]; rfl)).trans (by rw [← htooDeep]; rfl)
  | case4 | case7 => rfl

/-- The two counters together are the one count of plain nesting. -/
theorem exists_spans_extent (depth ignored n : Nat) (tooDeep : Option Nat)
    (cs : List Char) (hpos : 1 ≤ depth) (hmax : depth ≤ maxNesting)
    (hfull : 0 < ignored → depth = maxNesting) :
    ∃ us, Spans (depth + ignored) (marks cs) (extent depth ignored n tooDeep cs).closed us ∧
      (extent depth ignored n tooDeep cs).length = n + (textOf us).length ∧
      (tooDeep = none → ignored = 0 →
        Deepens depth n cs us (extent depth ignored n tooDeep cs).tooDeep) := by
  have hten : maxNesting = 10 := rfl
  have hopener : Mark.value .opener = 1 := rfl
  have hcloser : Mark.value .closer = -1 := rfl
  have hother (c : Char) : Mark.value (.other c) = 0 := rfl
  have hlong {l n : Nat} {m : Mark} {us : List Mark}
      (h : l = n + m.text.length + (textOf us).length) : l = n + (textOf (m :: us)).length := by
    rw [textOf_cons, List.length_append, h, Nat.add_assoc]
  fun_induction extent depth ignored n tooDeep cs with
  | case1 depth ignored n tooDeep cs hdepth ih =>
    obtain ⟨us, hspans, hlength, hdeep⟩ := ih (by omega) hdepth (by omega)
    refine ⟨.opener :: us, hspans.step (by omega) (by omega), hlong hlength, fun hnone hzero => ?_⟩
    exact .step .opener (hdeep hnone hzero) (by omega) (by omega)
  | case2 depth ignored n tooDeep cs hdepth ih =>
    obtain ⟨us, hspans, hlength, -⟩ := ih hpos hmax (by omega)
    refine ⟨.opener :: us, hspans.step (by omega) (by omega), hlong hlength, ?_⟩
    rintro rfl -
    exact ⟨some 0, tooDeep_extent_some _ _ _ _ _, fun p => .here (by omega)⟩
  | case3 depth ignored n tooDeep cs hignored ih =>
    obtain ⟨us, hspans, hlength, -⟩ := ih hpos hmax (fun _ => hfull hignored)
    exact ⟨.closer :: us, hspans.step (by omega) (by omega), hlong hlength,
      fun _ hzero => absurd hzero (Nat.ne_of_gt hignored)⟩
  | case4 depth ignored n tooDeep cs hignored hdepth =>
    have hlevel : (depth : Int) + ignored + Mark.value .closer = 0 := by omega
    refine ⟨[.closer], .closed (.here hlevel), rfl, fun hnone _ => ⟨none, hnone, fun p => ?_⟩⟩
    exact .step (by omega) (.never fun l hl => by rw [List.take_nil, count_nil]; omega)
  | case5 depth ignored n tooDeep cs hignored hdepth ih =>
    obtain ⟨us, hspans, hlength, hdeep⟩ := ih (by omega) (by omega) (by omega)
    refine ⟨.closer :: us, hspans.step (by omega) (by omega), hlong hlength, fun hnone hzero => ?_⟩
    exact .step .closer (hdeep hnone hzero) (by omega) (by omega)
  | case6 depth ignored n tooDeep c cs hopen hclose ih =>
    obtain ⟨us, hspans, hlength, hdeep⟩ := ih hpos hmax hfull
    rw [marks.eq_3 c cs hopen hclose]
    refine ⟨.other c :: us, hspans.step (by rw [hother]; omega) (by omega), hlong hlength,
      fun hnone hzero => ?_⟩
    exact .step (.other c) (hdeep hnone hzero) (by rw [hother]; omega) (by omega)
  | case7 depth ignored n tooDeep =>
    refine ⟨[], .unclosed fun l hl => ?_, rfl, fun hnone _ => ⟨none, hnone, fun p => ?_⟩⟩
    · exact absurd hl.le (Nat.not_le.2 hl.pos)
    · exact .never fun l hl => by rw [List.take_nil, count_nil]; omega

/-- The first return is the only one. -/
theorem Returns.eq {level : Int} {ms : List Mark} {m n : Nat} (hm : Returns level ms m)
    (hn : Returns level ms n) : m = n := by
  rcases Nat.lt_trichotomy m n with hlt | heq | hlt
  · exact absurd hm.zero (hn.first m hm.pos hlt)
  · exact heq
  · exact absurd hn.zero (hm.first n hn.pos hlt)

section

open Scanner

variable {o : LexicalOptions} {source : String} {s : Scanner}

/-- What is read at `(*`, told by the marks that the comment spans. -/
theorem exists_spans_of_arrives (h : Arrives o source s) (hopen : ['(', '*'] <+: s.rest) :
    ∃ closed us deep, Spans 0 (marks s.rest) closed us ∧ TooDeep 0 s.position us deep ∧
      Reads o source s
        ⟨if closed then .blockComment else .malformedComment, String.ofList (textOf us),
          s.position⟩
        (deep ++ if closed then [] else [.ofPosition .unterminatedComment s.position]) := by
  obtain ⟨o', p, cs⟩ := s
  obtain rfl : o' = o := h.options_eq
  obtain ⟨body, rfl⟩ : ∃ body, '(' :: '*' :: body = cs := hopen
  have hread : Chunk.read? o' p '(' ('*' :: body) = some (readBlock p body) := rfl
  obtain ⟨us, hspans, hlength, hdeep⟩ :=
    exists_spans_extent 1 0 0 none body (by decide) (by decide) (by decide)
  obtain ⟨t, htooDeep, hreport⟩ := hdeep rfl rfl
  simp only [Nat.zero_add, Option.map_id'] at htooDeep hlength
  obtain ⟨behind, hbehind⟩ : textOf us <+: body := by
    obtain ⟨later, hlater⟩ := hspans.prefix
    exact ⟨textOf later, by rw [← textOf_append, hlater, textOf_marks]⟩
  have htext : '(' :: '*' :: body = textOf (.opener :: us) ++ behind := by
    rw [textOf_cons, List.append_assoc, hbehind]
    rfl
  have hown : (readBlock p body).length = (textOf (.opener :: us)).length := by
    rw [length_readBlock, hlength, textOf_cons, List.length_append, Nat.add_comm]
    rfl
  have hreads := h.reads rfl rfl hread htext hown
  rw [token_readBlock, reports_readBlock, htooDeep] at hreads
  exact ⟨_, .opener :: us, _, hspans.step rfl (by decide), (hreport _).step (by decide), hreads⟩

/-- A comment is read as plain nesting has it. From `(*` on a text is read into pairs, of which `(*`
counts 1 and `*)` counts -1. If the count gets back to 0, this is the end of the comment; otherwise
the comment has no end, which is reported, and goes on to the end of the source. If the count
exceeds 10 in the comment, the first opener that makes it do so is reported, and no other one. -/
theorem comment_nests_plainly (h : Arrives o source s) (hopen : ['(', '*'] <+: s.rest) :
    (∀ n, Returns 0 (marks s.rest) n →
      ∃ deep, TooDeep 0 s.position ((marks s.rest).take n) deep ∧
        Reads o source s
          ⟨.blockComment, String.ofList (textOf ((marks s.rest).take n)), s.position⟩ deep) ∧
    ((∀ n, ¬ Returns 0 (marks s.rest) n) →
      ∃ deep, TooDeep 0 s.position (marks s.rest) deep ∧
        Reads o source s ⟨.malformedComment, String.ofList s.rest, s.position⟩
          (deep ++ [.ofPosition .unterminatedComment s.position])) := by
  obtain ⟨closed, us, deep, hspans, hdeep, hreads⟩ := exists_spans_of_arrives h hopen
  cases hspans with
  | @closed m hm =>
    refine ⟨fun n hn => ?_, fun hnone => absurd hm (hnone m)⟩
    rw [hn.eq hm]
    exact ⟨deep, hdeep, by simpa using hreads⟩
  | unclosed hnone =>
    refine ⟨fun n hn => absurd hn (hnone n), fun _ => ⟨deep, hdeep, ?_⟩⟩
    rw [textOf_marks] at hreads
    exact hreads

/-- Of `(*)` only the opener counts, so that the comment needs two more closers. -/
theorem comment_nests_plainly_overlapping :
    Arrives ⟨false, false, false⟩ "(*(*)*)*) x" (ofText ⟨false, false, false⟩ "(*(*)*)*) x") ∧
    Returns 0 (marks "(*(*)*)*) x".toList) 5 ∧
    ∃ deep, TooDeep 0 .start ((marks "(*(*)*)*) x".toList).take 5) deep ∧
      Reads ⟨false, false, false⟩ "(*(*)*)*) x" (ofText ⟨false, false, false⟩ "(*(*)*)*) x")
        ⟨.blockComment, "(*(*)*)*)", .start⟩ deep := by
  have hreturns : Returns 0 (marks "(*(*)*)*) x".toList) 5 :=
    ⟨by decide, by decide, by decide, fun m hpos hlt =>
      (by decide : ∀ m < 5, 0 < m → (0 : Int) + count ((marks "(*(*)*)*) x".toList).take m) ≠ 0)
        m hlt hpos⟩
  have harrives : Arrives ⟨false, false, false⟩ "(*(*)*)*) x"
      (ofText ⟨false, false, false⟩ "(*(*)*)*) x") := .start
  have hopen : ['(', '*'] <+: "(*(*)*)*) x".toList := by decide
  exact ⟨harrives, hreturns, (comment_nests_plainly harrives hopen).1 5 hreturns⟩

end

end Modula.Comment
