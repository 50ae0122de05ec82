import Modula.Proofs.Neighbours

/-!
# Semicolons in parentheses

In a sentence of the grammar, no semicolons are in parentheses but those between formal parameters.
This is shown by going through the symbols one by one and keeping in mind little of those before:
whether a list of formal parameters is open, and whether there has been a semicolon since the last
parenthesis. The grammar is checked production by production, with a bound on what is kept in mind
behind each.
-/

namespace Modula

open Grammar

/-- The symbols end in a list of formal parameters: behind `PROCEDURE`, a name and a parenthesis,
nothing closes the list. -/
def EndsInParameters (w : List Symbol) : Prop :=
  ∃ front procedure name opening inside, w = front ++ procedure :: name :: opening :: inside ∧
    procedure.token = .kwProcedure ∧ name.token ∈ identifiers ∧ opening.token = .lParen ∧
      ∀ s ∈ inside, s.token ≠ .rParen

/-! ## What is kept in mind -/

/-- What a token means for lists of formal parameters. -/
inductive Mark where
  | procedure | ident | opening | closing | semicolon | other
deriving DecidableEq, Repr

def Token.mark : Token → Mark
  | kwProcedure => .procedure
  | stdIdent | foreignIdent => .ident
  | lParen => .opening
  | rParen => .closing
  | semicolon => .semicolon
  | _ => .other

/-- Where a symbol stands, as far as the symbols in front of it tell. -/
inductive Region where
  /-- In a list of formal parameters. -/
  | parameters
  /-- Behind `PROCEDURE`. -/
  | header
  /-- Behind `PROCEDURE` and a name. -/
  | named
  /-- No semicolon has come since the last parenthesis. -/
  | plain
  /-- A semicolon may have come since the last parenthesis, and not between formal parameters. -/
  | loose
  /-- There may be a semicolon in parentheses that is not between formal parameters. -/
  | enclosed
deriving DecidableEq, Repr

namespace Region

/-- Where the next symbol stands. -/
def step : Region → Mark → Region
  | enclosed, _ => enclosed
  | parameters, .closing => plain
  | parameters, _ => parameters
  | named, .opening => parameters
  | _, .opening => plain
  | plain, .closing => plain
  | _, .closing => enclosed
  | _, .procedure => header
  | header, .ident => named
  | plain, .ident | plain, .other => plain
  | _, _ => loose

/-- Where the symbol behind the others stands. -/
def behind (r : Region) (w : List Symbol) : Region := w.foldl (fun r s => r.step s.token.mark) r

/-- All that may go wrong in the first region may go wrong in the second one. -/
def le : Region → Region → Bool
  | parameters, _ | _, enclosed => true
  | enclosed, _ | _, parameters => false
  | _, loose => true
  | r, s => r = s

/-- The least region in which all may go wrong that may go wrong in one of the two. -/
def join (r s : Region) : Region := if r.le s then s else if s.le r then r else loose

variable {r s t : Region}

theorem le_refl (r : Region) : r.le r = true := by
  cases r <;> rfl

theorem le_trans (hrs : r.le s = true) (hst : s.le t = true) : r.le t = true := by
  revert hrs hst
  cases r <;> cases s <;> cases t <;> decide

theorem le_top (r : Region) : r.le enclosed = true := by
  cases r <;> rfl

theorem le_join_left (r s : Region) : r.le (r.join s) = true := by
  cases r <;> cases s <;> rfl

theorem le_join_right (r s : Region) : s.le (r.join s) = true := by
  cases r <;> cases s <;> rfl

theorem join_eq_left (h : s.le r = true) : r.join s = r := by
  revert h
  cases r <;> cases s <;> decide

theorem step_le (h : r.le s = true) (m : Mark) : (r.step m).le (s.step m) = true := by
  revert h
  cases r <;> cases s <;> cases m <;> decide

theorem behind_le (h : r.le s = true) (w : List Symbol) : (r.behind w).le (s.behind w) = true := by
  induction w generalizing r s with
  | nil => exact h
  | cons x w ih => exact ih (step_le h x.token.mark)

theorem behind_append (r : Region) (u v : List Symbol) :
    r.behind (u ++ v) = (r.behind u).behind v := List.foldl_append

end Region

/-! ## Productions -/

/-- A bound on where the symbol behind a nonterminal stands, by where the nonterminal stands. -/
def Nonterminal.leads : Nonterminal → Region → Region
  | signature, .named => .loose
  | signature, _ => .enclosed
  | identList, .parameters | qualident, .parameters | formalType, .parameters
  | formalParameters, .parameters => .parameters
  | identList, .plain | qualident, .plain | formalType, .plain | expression, .plain
  | simpleExpression, .plain | term, .plain | simpleTerm, .plain | factor, .plain
  | simpleFactor, .plain | structuredValue, .plain | valueComponent, .plain | designator, .plain
  | actualParameters, .plain | expressionList, .plain | caseLabelList, .plain => .plain
  | _, .plain | _, .loose => .loose
  | _, _ => .enclosed

namespace Ebnf

/-- A bound on where the symbol behind an expression of the grammar stands. -/
def leads : Ebnf → Region → Region
  | oneOf t ts, r => ts.foldr (fun u x => (r.step u.mark).join x) (r.step t.mark)
  | ident _, r => r.step .ident
  | empty, r => r
  | seq a b, r => leads b (leads a r)
  | either a b, r => (leads a r).join (leads b r)
  | many a, r =>
    let s := r.join (leads a r)
    if (leads a s).le s then s else .enclosed
  | rule n, r => n.leads r
  | closed _ body, r => (leads body (r.step .ident)).step .ident

theorem leads_many (a : Ebnf) (r : Region) : (many a).leads r =
    if (a.leads (r.join (a.leads r))).le (r.join (a.leads r)) then r.join (a.leads r)
    else .enclosed := rfl

theorem step_le_leads_oneOf {t u : Token} {ts : List Token} (h : u ∈ t :: ts) (r : Region) :
    (r.step u.mark).le ((oneOf t ts).leads r) = true := by
  unfold leads
  induction ts with
  | nil =>
    rw [List.mem_singleton.1 h]
    exact Region.le_refl _
  | cons v ts ih =>
    rw [List.foldr_cons]
    by_cases huv : u = v
    · rw [huv]
      exact Region.le_join_left _ _
    · refine Region.le_trans (ih ?_) (Region.le_join_right _ _)
      simpa [huv] using h

end Ebnf

/-- The table is a bound for the productions. -/
theorem leads_production {d : Dialect} (hd : d.isTolerant = false) (n : Nonterminal) (r : Region) :
    ((production d n).leads r).le (n.leads r) = true := by
  rcases d with ⟨records, isTolerant⟩
  obtain rfl : isTolerant = false := hd
  cases n with
  | typeDefinition part => cases part <;> cases records <;> cases r <;> decide +kernel
  | _ => cases records <;> cases r <;> decide +kernel

theorem mark_of_mem_identifiers {t : Token} (h : t ∈ identifiers) : t.mark = .ident := by
  revert h
  cases t <;> decide

/-- The bound is one for all that an expression of the grammar derives in the strict dialect. -/
theorem Derives.behind_le {d : Dialect} {a : Ebnf} {u : List Symbol} (hd : d.isTolerant = false)
    (h : Derives d a u) (r : Region) : (r.behind u).le (a.leads r) = true := by
  induction h generalizing r with
  | oneOf s h => exact Ebnf.step_le_leads_oneOf (h.mem hd) r
  | ident s h =>
    rw [Region.behind, List.foldl_cons, List.foldl_nil, mark_of_mem_identifiers (h.mem hd)]
    exact Region.le_refl _
  | empty => exact Region.le_refl r
  | seq _ _ iha ihb =>
    rw [Region.behind_append]
    exact Region.le_trans (Region.behind_le (iha r) _) (ihb _)
  | left _ ih => exact Region.le_trans (ih r) (Region.le_join_left _ _)
  | right _ ih => exact Region.le_trans (ih r) (Region.le_join_right _ _)
  | none =>
    rw [Ebnf.leads_many]
    split
    · exact Region.le_join_left _ _
    · exact Region.le_top _
  | @more a u v _ _ iha ihm =>
    have hone := Region.le_trans (iha r) (Region.le_join_right r (a.leads r))
    have hmore := ihm (r.join (a.leads r))
    rw [Ebnf.leads_many] at hmore ⊢
    split
    · next hstable =>
      -- what holds behind one round holds behind all the others
      rw [Region.join_eq_left hstable, if_pos hstable] at hmore
      rw [Region.behind_append]
      exact Region.le_trans (Region.behind_le hone v) hmore
    · exact Region.le_top _
  | @rule n u _ ih => exact Region.le_trans (ih r) (leads_production hd n r)
  | @closed spelled body u s t _ _ _ ihs ihu iht =>
    have hbody := Region.le_trans (Region.behind_le (ihs r) u) (ihu _)
    rw [← List.singleton_append, Region.behind_append, Region.behind_append]
    exact Region.le_trans (Region.behind_le hbody [t]) (iht _)

/-! ## Sentences -/

namespace Region

/-- What a region says of the symbols so far. -/
def Holds : Region → List Symbol → Prop
  | parameters, w => EndsInParameters w
  | header, w => ∃ front procedure, w = front ++ [procedure] ∧ procedure.token = .kwProcedure
  | named, w => ∃ front procedure name, w = front ++ [procedure, name] ∧
    procedure.token = .kwProcedure ∧ name.token ∈ identifiers
  | _, _ => True

theorem Holds.step {r : Region} {w : List Symbol} (h : r.Holds w) (s : Symbol) :
    (r.step s.token.mark).Holds (w ++ [s]) := by
  have hprocedure : s.token.mark = .procedure → s.token = .kwProcedure := by
    cases s.token <;> decide
  have hident : s.token.mark = .ident → s.token ∈ identifiers := by
    cases s.token <;> decide
  have hopening : s.token.mark = .opening → s.token = .lParen := by
    cases s.token <;> decide
  have hclosing : s.token = .rParen → s.token.mark = .closing := fun ht => by rw [ht]; rfl
  have hheader (hm : s.token.mark = .procedure) : header.Holds (w ++ [s]) :=
    ⟨w, s, rfl, hprocedure hm⟩
  cases r with
  | parameters =>
    by_cases hm : s.token.mark = .closing
    · rw [hm]
      trivial
    · have hstep : parameters.step s.token.mark = parameters := by
        revert hm
        cases s.token.mark <;> simp [Region.step]
      obtain ⟨front, procedure, name, opening, inside, rfl, hp, hn, ho, hinside⟩ := h
      rw [hstep]
      refine ⟨front, procedure, name, opening, inside ++ [s], by simp, hp, hn, ho, fun t ht => ?_⟩
      rcases List.mem_append.1 ht with ht | ht
      · exact hinside t ht
      · rw [List.mem_singleton.1 ht]
        exact fun hs => hm (hclosing hs)
  | header =>
    obtain ⟨front, procedure, rfl, hp⟩ := h
    cases hm : s.token.mark with
    | procedure => exact hheader hm
    | ident => exact ⟨front, procedure, s, by simp, hp, hident hm⟩
    | _ => trivial
  | named =>
    obtain ⟨front, procedure, name, rfl, hp, hn⟩ := h
    cases hm : s.token.mark with
    | procedure => exact hheader hm
    | opening => exact ⟨front, procedure, name, s, [], by simp, hp, hn, hopening hm, nofun⟩
    | _ => trivial
  | plain | loose =>
    cases hm : s.token.mark with
    | procedure => exact hheader hm
    | _ => trivial
  | enclosed => trivial

theorem Holds.behind {r : Region} {u : List Symbol} (h : r.Holds u) (w : List Symbol) :
    (r.behind w).Holds (u ++ w) := by
  induction w generalizing r u with
  | nil => rwa [List.append_nil]
  | cons s w ih =>
    rw [List.append_cons]
    exact ih (h.step s)

/-- There may have been a semicolon since the last parenthesis, and not between formal
parameters. -/
def isTight : Region → Bool
  | parameters | plain => false
  | _ => true

/-- The parenthesis that comes next finds the semicolon in front of it. -/
theorem behind_of_closesFirst {r : Region} {w : List Symbol} (hr : r.isTight = true)
    (hw : ClosesFirst w) : r.behind w = enclosed := by
  have htop (w : List Symbol) : enclosed.behind w = enclosed := by
    induction w with
    | nil => rfl
    | cons s w ih => exact ih
  induction w generalizing r with
  | nil => cases hw
  | cons s w ih =>
    change (r.step s.token.mark).behind w = enclosed
    by_cases hclosing : s.token = .rParen
    · have hstep : r.step s.token.mark = enclosed := by
        rw [hclosing]
        revert hr
        cases r <;> decide
      rw [hstep, htop]
    · have hopening : s.token ≠ .lParen := by
        intro hs
        unfold ClosesFirst at hw
        rw [List.find?_cons_of_pos (by simp [hs]), Option.map_some, hs] at hw
        cases hw
      refine ih ?_ ((closesFirst_cons ?_).1 hw)
      · revert hr hclosing hopening
        generalize s.token = t
        cases r <;> cases t <;> decide
      · revert hclosing hopening
        cases s.token <;> simp

end Region

/-- Where nothing is reported, a semicolon in front of a parenthesis that closes is one between
formal parameters. -/
theorem endsInParameters_of_closesFirst {o : ParseOptions} {kind : UnitKind} {text : String}
    {out : ParseOutput} {earlier later : List Symbol} {s : Symbol}
    (hparse : parse o kind text = .ok out) (hclean : out.reports = [])
    (hsymbols : (tokenize o.lexical text).semantic = earlier ++ s :: later)
    (hs : s.token = .semicolon) (hclose : ClosesFirst later) : EndsInParameters earlier := by
  obtain ⟨e, he, hend⟩ := semantic_eq_words o.lexical text
  have hwords := Derives.behind_le rfl (words_mem_sentences hparse hclean) .plain
  have hall : (Region.plain.behind (earlier ++ s :: later)).le .loose = true := by
    rw [← hsymbols, he, Region.behind_append]
    refine Region.le_trans (Region.behind_le hwords [e]) ?_
    rw [Region.behind, List.foldl_cons, List.foldl_nil, hend]
    rfl
  have hholds := Region.Holds.behind (r := .plain) (u := []) trivial earlier
  rw [Region.behind_append] at hall
  generalize Region.plain.behind earlier = r at hall hholds
  by_cases hr : r = .parameters
  · rw [hr] at hholds
    exact hholds
  · have htight : (r.step s.token.mark).isTight = true := by
      rw [hs]
      revert hr
      cases r <;> decide
    have henclosed : (r.step s.token.mark).behind later = .enclosed :=
      Region.behind_of_closesFirst htight hclose
    change ((r.step s.token.mark).behind later).le .loose = true at hall
    rw [henclosed] at hall
    cases hall

end Modula
