import Modula.Proofs.Arrivals

/-!
# Pieces in other places

A piece of a text is the same in front of anything that passes for what was behind it, and at any
position with the same line and column; its faults are the same as well. So a text may be exchanged
for another one where a place between two pieces is reached: everything in front of the place is
read as before.
-/

namespace Modula

/-! ## What passes behind some characters -/

theorem PassesFor.rfl {back : List Char} : PassesFor back back :=
  ⟨fun _ hc => .inr (.inr hc), id, id, id⟩

/-- Behind a character that is no dot, anything passes for anything. -/
theorem PassesFor.cons {c : Char} (hc : c ≠ '.') (back' back : List Char) :
    PassesFor (c :: back') (c :: back) :=
  ⟨by simp, by simp, fun _ => by simp [Number.startsFraction, hc], by simp⟩

/-- What passes for a text does so behind any characters, unless there may have been two dots. -/
theorem PassesFor.append {back' back : List Char} (h : PassesFor back' back)
    (hdot : back.head? ≠ some '.') (front : List Char) :
    PassesFor (front ++ back') (front ++ back) := by
  match front with
  | [] => exact h
  | [c] =>
    refine ⟨by simp, by simp, fun hpoint => ?_, by simp⟩
    by_cases hc : c = '.'
    · subst hc
      have hback : back.head?.any (· = '.') = false := by
        rw [Option.any_eq_false]
        rintro d hd
        simpa using fun heq : d = '.' => hdot (heq ▸ hd)
      rw [List.singleton_append, Number.startsFraction_dot, hback] at hpoint
      cases hpoint
    · simp [Number.startsFraction, hc]
  | c :: d :: front =>
    refine ⟨by simp, by simp, ?_, by simp⟩
    by_cases hc : c = '.' <;> by_cases hd : d = '.' <;> simp [Number.startsFraction, hc, hd]

namespace Comment

theorem bounds_disabledExtent? {n m : Nat} {cs : List Char} (h : disabledExtent? n cs = some m) :
    n + 3 ≤ m ∧ m ≤ n + cs.length := by
  obtain ⟨front, line, behind, rfl, rfl, -⟩ := exists_of_disabledExtent?_eq_some h
  have hcloser : closer.length = 3 := rfl
  simp only [List.length_append]
  omega

/-- Disabled code goes on where no line ends it. -/
theorem disabledExtent?_cons {c : Char} {cs : List Char} (h : ¬closer <+: c :: cs) (n : Nat) :
    disabledExtent? n (c :: cs) = disabledExtent? (n + 1) cs := by
  rw [disabledExtent?]
  rintro more rfl rfl
  exact h ⟨more, rfl⟩

/-- Disabled code ends with its last line, whatever comes behind that line. -/
theorem disabledExtent?_append {n : Nat} {u back back' : List Char} (hb : PassesFor back' back)
    (h : disabledExtent? n (u ++ back) = some (n + u.length)) :
    disabledExtent? n (u ++ back') = some (n + u.length) := by
  have hle := (bounds_disabledExtent? h).1
  match u with
  | [] | [_] | [_, _] =>
    simp only [List.length_cons, List.length_nil] at hle
    omega
  | c :: d :: e :: u =>
    by_cases hline : c = '\n' ∧ d = '?' ∧ e = '>'
    · obtain ⟨rfl, rfl, rfl⟩ := hline
      simp only [List.cons_append, disabledExtent?, List.length_cons, Option.some.injEq] at h ⊢
      rw [(takeWhile_append_of_any_head? hb.line (by omega)).2]
      omega
    · have hstep (x : List Char) : disabledExtent? n (c :: d :: e :: u ++ x) =
          disabledExtent? (n + 1) (d :: e :: u ++ x) := by
        refine disabledExtent?_cons (fun hprefix => hline ?_) n
        obtain ⟨hc, hprefix⟩ := List.cons_prefix_cons.1 hprefix
        obtain ⟨hd, hprefix⟩ := List.cons_prefix_cons.1 hprefix
        exact ⟨hc.symm, hd.symm, (List.cons_prefix_cons.1 hprefix).1.symm⟩
      rw [hstep] at h ⊢
      have hlength : n + (c :: d :: e :: u).length = n + 1 + (d :: e :: u).length := by
        simp only [List.length_cons]
        omega
      rw [hlength] at h ⊢
      exact disabledExtent?_append hb h

end Comment

/-! ## One piece -/

/-- A fault shows only the line and column of its position. -/
theorem Position.Level.ofPosition_eq {p q : Position} (h : p.Level q) (code : Code) :
    Diagnostic.ofPosition code q = Diagnostic.ofPosition code p := by
  rw [Diagnostic.ofPosition, Diagnostic.ofPosition, h.line_eq, h.column_eq]

theorem Position.Level.strayReport_eq {p q : Position} (h : p.Level q) (c : Char) :
    Chunk.strayReport q c = Chunk.strayReport p c := by
  rw [Chunk.strayReport, Chunk.strayReport, h.ofPosition_eq]

/-- What a symbol shows: its token, its text, and its line and column. -/
def Symbol.shown (s : Symbol) : Token × String × Nat × Nat := (s.token, s.text, s.line, s.column)

namespace Chunk

variable {o : LexicalOptions} {p q : Position} {c : Char} {rest behind behind' : List Char}
  {t : Token}

/-- The pieces differ at most in where they start, and not in the line and column of that. -/
structure Alike (k' k : Chunk) : Prop where
  token?_eq : k'.token? = k.token?
  text_eq : k'.text = k.text
  dropped_eq : k'.dropped = k.dropped
  reports_eq : k'.reports = k.reports
  level : k.position.Level k'.position

theorem Alike.extent_eq {k' k : Chunk} (h : Alike k' k) : k'.extent = k.extent := by
  rw [extent, h.text_eq, h.dropped_eq, extent]

/-- An apostrophe behind a word is dropped in front of both texts, or of neither. -/
theorem dropsApostrophe_append {dropped : List Char} (hb : PassesFor behind' behind)
    (h : dropped =
      if c.isAlpha && (dropped ++ behind).head? == some '\x27' then ['\x27'] else []) :
    PassesFor (dropped ++ behind') (dropped ++ behind) ∧
      (c.isAlpha && (dropped ++ behind').head? == some '\x27') =
        (c.isAlpha && (dropped ++ behind).head? == some '\x27') := by
  cases hdrops : c.isAlpha && (dropped ++ behind).head? == some '\x27' with
  | true =>
    rw [hdrops, if_pos rfl] at h
    subst h
    exact ⟨.cons (by decide) _ _, hdrops⟩
  | false =>
    rw [hdrops, if_neg Bool.false_ne_true] at h
    subst h
    refine ⟨hb, ?_⟩
    rw [Bool.and_eq_false_iff] at hdrops ⊢
    refine hdrops.imp_right fun hhead => ?_
    rw [beq_eq_false_iff_ne] at hhead ⊢
    intro hhead'
    obtain h | h | h := hb.head '\x27' hhead'
    · cases h
    · cases h
    · exact hhead h

/-- A symbol is read alike in another place, its faults included. -/
theorem exists_read?_append {u back back' : List Char} {r : Reading} (hpq : p.Level q)
    (hb : PassesFor back' back) (hr : read? o p c (u ++ back) = some r)
    (hlength : r.length = u.length + 1) : ∃ r', read? o q c (u ++ back') = some r' ∧
      r'.token = r.token ∧ r'.length = u.length + 1 ∧ r'.reports = r.reports := by
  have hread := outline_read?_append (v := .exact) hpq hb hr hlength
  obtain ⟨r', hr', houtline⟩ := Option.map_eq_some_iff.1 hread
  have htold : r'.reports.map id = r.reports.map id := congrArg (·.2.2) houtline
  rw [List.map_id, List.map_id] at htold
  exact ⟨r', hr', congrArg (·.1) houtline, (congrArg (·.2.1) houtline).trans hlength, htold⟩

theorem alike_of_token? (hpq : p.Level q) (ht : (first o p c rest).token? = some t)
    (h : c :: rest = (first o p c rest).extent ++ behind) (hb : PassesFor behind' behind) :
    ∃ rest', (first o p c rest).extent ++ behind' = c :: rest' ∧
      Alike (first o q c rest') (first o p c rest) := by
  obtain ⟨hc, u, back, r, rfl, hr, rfl, hlength, hfirst⟩ := exists_split_of_token? ht
  rw [hfirst] at h ⊢
  have htext : (ofReading p c (u ++ back) r).text = c :: u := text_ofReading_append hlength
  have hdropped : (ofReading p c (u ++ back) r).dropped =
      if c.isAlpha && back.head? == some '\x27' then ['\x27'] else [] :=
    dropped_ofReading_append hlength
  rw [extent, htext, List.append_assoc, List.cons_append, List.cons.injEq] at h
  have hback : back = (ofReading p c (u ++ back) r).dropped ++ behind :=
    List.append_cancel_left h.2
  obtain ⟨hpasses, hdrops⟩ := dropsApostrophe_append (c := c) hb (by rw [← hback]; exact hdropped)
  rw [← hback] at hpasses hdrops
  obtain ⟨r', hr', htoken, hlength', hreports⟩ := exists_read?_append hpq hpasses hr hlength
  refine ⟨u ++ ((ofReading p c (u ++ back) r).dropped ++ behind'), ?_, ?_⟩
  · rw [extent, htext, List.append_assoc, List.cons_append]
  rw [first_of_read? hc hr']
  refine ⟨congrArg some htoken, ?_, ?_, ?_, hpq⟩
  · rw [text_ofReading_append hlength', htext]
  · rw [dropped_ofReading_append hlength', hdrops, hdropped]
  · rw [reports_ofReading_append hlength', reports_ofReading_append hlength, hdrops, hreports,
      (hpq.after (c :: u)).strayReport_eq]

/-- Disabled code that ends goes up to there. -/
theorem first_of_disabledExtent? {v back : List Char} (hp : p.column = 1)
    (h : Comment.disabledExtent? 0 ('?' :: '<' :: v ++ back) = some (v.length + 2)) :
    first o p '?' ('<' :: v ++ back) = idle p '?' ('<' :: v) [] := by
  have hdisabled : Comment.disabled p ('?' :: ('<' :: v ++ back)) = ⟨v.length + 2, []⟩ := by
    rw [Comment.disabled, ← List.cons_append, h]
  have htake : ('<' :: v ++ back).take (v.length + 2 - 1) = '<' :: v := List.take_left' rfl
  rw [first, if_neg (by decide), if_pos ⟨rfl, hp, rfl⟩, hdisabled]
  exact congrArg (idle p '?' · []) htake

/-- Disabled code that does not end takes all there is. -/
theorem first_of_disabledExtent?_eq_none (hp : p.column = 1) (hrest : rest.head? = some '<')
    (h : Comment.disabledExtent? 0 ('?' :: rest) = none) :
    first o p '?' rest = idle p '?' rest [.ofPosition .unterminatedDisabled p] := by
  have hdisabled : Comment.disabled p ('?' :: rest) =
      ⟨rest.length + 1, [.ofPosition .unterminatedDisabled p]⟩ := by
    rw [Comment.disabled, h]
    rfl
  have htake : rest.take (rest.length + 1 - 1) = rest := List.take_length
  rw [first, if_neg (by decide), if_pos ⟨rfl, hp, hrest⟩, hdisabled]
  exact congrArg (idle p '?' · _) htake

/-- Disabled code that ends has some characters up to there. -/
theorem exists_of_disabledExtent? {n : Nat} (hrest : rest.head? = some '<')
    (hn : Comment.disabledExtent? 0 ('?' :: rest) = some n) : ∃ v back, rest = '<' :: v ++ back ∧
      Comment.disabledExtent? 0 ('?' :: '<' :: v ++ back) = some (v.length + 2) := by
  obtain ⟨rest, rfl⟩ := List.head?_eq_some_iff.1 hrest
  obtain ⟨hthree, hle⟩ := Comment.bounds_disabledExtent? hn
  obtain ⟨m, rfl⟩ := Nat.exists_eq_add_of_le' (show 2 ≤ n by omega)
  have hlength : (rest.take m).length = m :=
    List.length_take_of_le (by simp only [List.length_cons] at hle; omega)
  refine ⟨rest.take m, rest.drop m, ?_, ?_⟩
  · rw [List.cons_append, List.take_append_drop]
  · rw [List.cons_append, List.cons_append, List.take_append_drop, hlength, hn]

theorem alike_of_disabled (hpq : p.Level q) (hp : p.column = 1) (hrest : rest.head? = some '<')
    (h : '?' :: rest = (first o p '?' rest).extent ++ behind) (hb : PassesFor behind' behind) :
    ∃ rest', (first o p '?' rest).extent ++ behind' = '?' :: rest' ∧
      Alike (first o q '?' rest') (first o p '?' rest) := by
  have hq : q.column = 1 := hpq.column_eq.symm.trans hp
  cases hn : Comment.disabledExtent? 0 ('?' :: rest) with
  | none =>
    rw [first_of_disabledExtent?_eq_none hp hrest hn, extent_idle] at h ⊢
    have hbehind : behind = [] := List.append_right_eq_self.1 h.symm
    refine ⟨rest, by rw [hb.nil hbehind, List.append_nil], ?_⟩
    rw [first_of_disabledExtent?_eq_none hq hrest hn]
    exact ⟨rfl, rfl, rfl, congrArg (fun d => [d]) (hpq.ofPosition_eq _), hpq⟩
  | some n =>
    obtain ⟨v, back, rfl, hv⟩ := exists_of_disabledExtent? hrest hn
    rw [first_of_disabledExtent? hp hv, extent_idle] at h ⊢
    obtain rfl : back = behind := List.append_cancel_left (List.cons.inj h).2
    have hv' : Comment.disabledExtent? 0 ('?' :: '<' :: v ++ behind') = some (v.length + 2) := by
      rw [← Nat.zero_add (v.length + 2)] at hv ⊢
      exact Comment.disabledExtent?_append hb hv
    refine ⟨'<' :: v ++ behind', rfl, ?_⟩
    rw [first_of_disabledExtent? hq hv']
    exact ⟨rfl, rfl, rfl, rfl, hpq⟩

theorem alike_of_read?_eq_none (hpq : p.Level q) (hc : isBlank c = false)
    (hread : read? o p c rest = none)
    (hopen : ¬(c = '?' ∧ p.column = 1 ∧ rest.head? = some '<'))
    (h : c :: rest = (first o p c rest).extent ++ behind) (hb : PassesFor behind' behind) :
    ∃ rest', (first o p c rest).extent ++ behind' = c :: rest' ∧
      Alike (first o q c rest') (first o p c rest) := by
  have hfirst : first o p c rest = idle p c [] [strayReport p c] := by
    rw [first, hc, if_neg Bool.false_ne_true, if_neg hopen, hread]
  rw [hfirst, extent_idle] at h ⊢
  obtain rfl : rest = behind := (List.cons.inj h).2
  have hopen' : ¬(c = '?' ∧ q.column = 1 ∧ behind'.head? = some '<') := by
    rintro ⟨hquestion, hq, hhead⟩
    obtain h | h | h := hb.head '<' hhead
    · cases h
    · cases h
    · exact hopen ⟨hquestion, hpq.column_eq.trans hq, h⟩
  refine ⟨behind', rfl, ?_⟩
  rw [first, hc, if_neg Bool.false_ne_true, if_neg hopen', read?_eq_none hread]
  exact ⟨rfl, rfl, rfl, congrArg (fun d => [d]) (hpq.strayReport_eq c), hpq⟩

/-- Every piece is the same in another place, unless it consists of blanks. -/
theorem exists_alike (hpq : p.Level q) (hc : isBlank c = false)
    (h : c :: rest = (first o p c rest).extent ++ behind) (hb : PassesFor behind' behind) :
    ∃ rest', (first o p c rest).extent ++ behind' = c :: rest' ∧
      Alike (first o q c rest') (first o p c rest) := by
  by_cases hopen : c = '?' ∧ p.column = 1 ∧ rest.head? = some '<'
  · obtain ⟨rfl, hp, hrest⟩ := hopen
    exact alike_of_disabled hpq hp hrest h hb
  cases hread : read? o p c rest with
  | none => exact alike_of_read?_eq_none hpq hc hread hopen h hb
  | some r =>
    have htoken : (first o p c rest).token? = some r.token := by
      rw [first_of_read? hc hread]
      rfl
    exact alike_of_token? hpq htoken h hb

/-- Disabled code that does not end is at the end. -/
theorem code_ne_unterminatedDisabled (h : c :: rest = (first o p c rest).extent ++ behind)
    (hbehind : behind ≠ []) {d : Diagnostic} (hd : d ∈ (first o p c rest).reports) :
    d.code ≠ .unterminatedDisabled := by
  cases faults_of_mem hd with
  | unended hc hp hrest hn =>
    subst hc
    rw [first_of_disabledExtent?_eq_none hp hrest hn, extent_idle] at h
    exact absurd (List.append_right_eq_self.1 h.symm) hbehind
  | symbol hr hd hown =>
    intro hcode
    rw [hcode] at hown
    cases hown
  | apostrophe q => exact Code.noConfusion
  | stray hr => exact Code.noConfusion

theorem first_of_isBlank (hc : isBlank c = true) :
    first o p c rest = idle p c (rest.takeWhile isBlank) [] := by rw [first, if_pos hc]

/-! ## Texts -/

theorem Alike.symbol?_eq {k' k : Chunk} (h : Alike k' k) (hposition : k'.position = k.position) :
    k'.symbol? o = k.symbol? o := by
  unfold symbol? Scanned.keptToken?
  rw [h.token?_eq, h.text_eq, hposition]

/-- These are the symbols and the faults of the text. -/
structure ReadsAs (o : LexicalOptions) (p : Position) (text : List Char) (ss : List Symbol)
    (ds : List Diagnostic) : Prop where
  symbols_eq : symbols o p text = ss
  reports_eq : (cut o p text).flatMap reports = ds

theorem readsAs_iff_of_extent {ss : List Symbol} {ds : List Diagnostic}
    (h : c :: rest = (first o p c rest).extent ++ behind) : ReadsAs o p (c :: rest) ss ds ↔
      ∃ later es, ss = ((first o p c rest).symbol? o).toList ++ later ∧
        ds = (first o p c rest).reports ++ es ∧
          ReadsAs o (p.after (first o p c rest).extent) behind later es := by
  constructor
  · rintro ⟨rfl, rfl⟩
    exact ⟨_, _, symbols_of_extent h, reports_cut_of_extent h, rfl, rfl⟩
  · rintro ⟨later, es, rfl, rfl, rfl, rfl⟩
    exact ⟨symbols_of_extent h, reports_cut_of_extent h⟩

/-- The blanks in front of a text are one piece, which is no symbol. -/
theorem readsAs_dropWhile_isBlank {text : List Char} {ss : List Symbol} {ds : List Diagnostic} :
    ReadsAs o p text ss ds ↔
      ReadsAs o (p.after (text.takeWhile isBlank)) (text.dropWhile isBlank) ss ds := by
  cases text with
  | nil => rfl
  | cons c rest =>
    cases hc : isBlank c with
    | false =>
      rw [List.takeWhile_cons_of_neg (by simp [hc]), List.dropWhile_cons_of_neg (by simp [hc])]
      rfl
    | true =>
      have hfirst : first o p c rest = idle p c (rest.takeWhile isBlank) [] := first_of_isBlank hc
      have hextent : (first o p c rest).extent = c :: rest.takeWhile isBlank := by
        rw [hfirst, extent_idle]
      have hsplit : c :: rest = (first o p c rest).extent ++ rest.dropWhile isBlank := by
        rw [hextent, List.cons_append, List.takeWhile_append_dropWhile]
      rw [readsAs_iff_of_extent hsplit, List.takeWhile_cons_of_pos hc,
        List.dropWhile_cons_of_pos hc, hextent, hfirst]
      exact ⟨fun ⟨_, _, hss, hds, h⟩ => hss ▸ hds ▸ h, fun h => ⟨ss, ds, rfl, rfl, h⟩⟩

/-- Blanks in front of a text make no difference. -/
theorem readsAs_blanks {bs text : List Char} {ss : List Symbol} {ds : List Diagnostic}
    (hbs : ∀ b ∈ bs, isBlank b = true) :
    ReadsAs o p (bs ++ text) ss ds ↔ ReadsAs o (p.after bs) text ss ds := by
  rw [readsAs_dropWhile_isBlank, readsAs_dropWhile_isBlank (p := p.after bs),
    List.takeWhile_append_of_pos hbs, List.dropWhile_append_of_pos hbs, Position.after_append]

/-- A piece is read in front of anything that passes for what was behind it. -/
theorem ReadsAs.inFrontOf {later : List Symbol} {es : List Diagnostic}
    (h : c :: rest = (first o p c rest).extent ++ behind) (hb : PassesFor behind' behind)
    (hlater : ReadsAs o (p.after (first o p c rest).extent) behind' later es) :
    ReadsAs o p ((first o p c rest).extent ++ behind')
      (((first o p c rest).symbol? o).toList ++ later) ((first o p c rest).reports ++ es) := by
  cases hc : isBlank c with
  | true =>
    rw [first_of_isBlank hc, extent_idle] at hlater ⊢
    refine (readsAs_blanks ?_).2 hlater
    exact List.forall_mem_cons.2 ⟨hc, List.all_eq_true.1 List.all_takeWhile⟩
  | false =>
    obtain ⟨rest', hrest', halike⟩ := exists_alike ⟨rfl, rfl⟩ hc h hb
    have hsplit : c :: rest' = (first o p c rest').extent ++ behind' := by
      rw [halike.extent_eq, hrest']
    have hposition := (within_first o p c rest').position_eq.trans
      (within_first o p c rest).position_eq.symm
    rw [hrest', readsAs_iff_of_extent hsplit]
    refine ⟨later, es, by rw [halike.symbol?_eq hposition], by rw [halike.reports_eq], ?_⟩
    rwa [halike.extent_eq]

theorem Alike.shown_symbol? {k' k : Chunk} (h : Alike k' k) :
    (k'.symbol? o).toList.map Symbol.shown = (k.symbol? o).toList.map Symbol.shown := by
  have hplace : (k'.position.line, k'.position.column) = (k.position.line, k.position.column) := by
    rw [h.level.line_eq, h.level.column_eq]
  unfold symbol? Scanned.keptToken?
  rw [h.token?_eq, h.text_eq]
  cases k.token?.filter _ with
  | none => rfl
  | some t => exact congrArg (fun place => [(t, String.ofList k.text, place)]) hplace

/-- A text has the same symbols and faults at another position with the same line and column. -/
theorem shown_symbols_of_level (hpq : p.Level q) (text : List Char) :
    (symbols o q text).map Symbol.shown = (symbols o p text).map Symbol.shown ∧
      (cut o q text).flatMap reports = (cut o p text).flatMap reports := by
  induction p, text using cut_induction o generalizing q with
  | nil p => simp [symbols]
  | cons p c rest behind htext ih =>
    have halike : Alike (first o q c rest) (first o p c rest) := by
      cases hc : isBlank c with
      | true =>
        rw [first_of_isBlank hc, first_of_isBlank hc]
        exact ⟨rfl, rfl, rfl, rfl, hpq⟩
      | false =>
        obtain ⟨rest', hrest', halike⟩ := exists_alike hpq hc htext .rfl
        rw [← htext] at hrest'
        exact (List.cons.inj hrest').2 ▸ halike
    have htext' : c :: rest = (first o q c rest).extent ++ behind := by
      rw [halike.extent_eq, ← htext]
    have hbehind := ih (hpq.after (first o p c rest).extent)
    rw [symbols_of_extent htext', symbols_of_extent htext, reports_cut_of_extent htext',
      reports_cut_of_extent htext, List.map_append, List.map_append, halike.shown_symbol?,
      halike.reports_eq, halike.extent_eq, hbehind.1, hbehind.2]
    exact ⟨rfl, rfl⟩

end Chunk

/-! ## Reached places -/

/-- What is in front of a place that calls arrive at is read in the same way, whatever comes there
instead, as long as it passes for what came there. -/
theorem Scanner.Arrives.exists_readsAs {o : LexicalOptions} {source : String} {s : Scanner}
    (h : Arrives o source s) : ∃ front ss ds,
      source.toList = front ++ s.rest ∧ s.position = Position.start.after front ∧
      (s.rest ≠ [] → ∀ d ∈ ds, d.code ≠ .unterminatedDisabled) ∧
      ∀ behind later es, (∀ u, PassesFor (u ++ behind) (u ++ s.rest)) →
        Chunk.ReadsAs o s.position behind later es →
          Chunk.ReadsAs o .start (front ++ behind) (ss ++ later) (ds ++ es) := by
  induction h with
  | start => exact ⟨[], [], [], rfl, rfl, fun _ => List.forall_mem_nil _, fun _ _ _ _ => id⟩
  | @behind p c rest h ih =>
    obtain ⟨front, ss, ds, hsource, hposition, hds, hreads⟩ := ih
    obtain ⟨back, hback⟩ := Chunk.extent_first_prefix o p c rest
    have hsplit := hback.symm
    rw [skip_of_extent hsplit]
    refine ⟨front ++ (Chunk.first o p c rest).extent,
      ss ++ ((Chunk.first o p c rest).symbol? o).toList, ds ++ (Chunk.first o p c rest).reports,
      ?_, ?_, fun hne => ?_, fun behind later es hb hlater => ?_⟩
    · rw [hsource, hsplit, List.append_assoc]
    · rw [Position.after_append, ← hposition]
    · refine List.forall_mem_append.2 ⟨hds (List.cons_ne_nil c rest), fun d hd => ?_⟩
      exact Chunk.code_ne_unterminatedDisabled hsplit hne hd
    · rw [List.append_assoc, List.append_assoc, List.append_assoc]
      refine hreads _ _ _ (fun u => ?_) (hlater.inFrontOf hsplit (hb []))
      have hpasses := hb (u ++ (Chunk.first o p c rest).extent)
      rwa [List.append_assoc, List.append_assoc, hback] at hpasses

end Modula
