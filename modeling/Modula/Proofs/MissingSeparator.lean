import Modula.Proofs.BridgesUnits
import Modula.Proofs.Overwritten
import Modula.Proofs.ParameterLists

/-!
# One missing separator

A source that is parsed without any report has one of its separators overwritten with spaces. This
costs one report, and nothing else.
-/

namespace Modula

open Modula.Grammar

/-- The symbol is a separator that may be overwritten, given the symbols in front of it: `DO`, or a
semicolon that neither separates formal parameters nor stands directly behind `RETURN`. -/
inductive IsSeparator (earlier : List Symbol) (s : Symbol) : Prop
  | loop (hs : s.token = .kwDo)
  | semicolon (hs : s.token = .semicolon) (houtside : ¬EndsInParameters earlier)
    (hreturn : ∀ t ∈ earlier.getLast?, t.token ≠ .kwReturn)

namespace IsSeparator

variable {earlier : List Symbol} {s : Symbol}

theorem mem_separators (h : IsSeparator earlier s) : s.token ∈ separators := by
  cases h with
  | loop hs => rw [hs]; decide
  | semicolon hs => rw [hs]; decide

theorem overwritable (h : IsSeparator earlier s) (hs : s.token.Spells s.text.toList) :
    Overwritable s.text.toList := by
  have hspelled {word : List Char} (hlexeme : s.token.hasLexeme = false)
      (hword : s.token.spelling? = some (String.ofList word)) : s.text.toList = word := by
    rcases hs with hs | hs
    · rw [hlexeme] at hs
      cases hs
    · exact String.ofList_injective (Option.some.inj (hs.symm.trans hword))
  cases h with
  | loop ht =>
    have htext : s.text.toList = ['D', 'O'] := hspelled (by rw [ht]; rfl) (by rw [ht]; rfl)
    rw [htext]
    exact ⟨List.forall_mem_cons.2 ⟨⟨rfl, by decide⟩, List.forall_mem_singleton.2 ⟨rfl, by decide⟩⟩,
      by simp⟩
  | semicolon ht =>
    have htext : s.text.toList = [';'] := hspelled (by rw [ht]; rfl) (by rw [ht]; rfl)
    rw [htext]
    exact ⟨List.forall_mem_singleton.2 ⟨rfl, by decide⟩, by simp⟩

end IsSeparator

/-! ## The start of a source without lexical faults -/

theorem quiet_startOfUnit {o : LexicalOptions} {text : String}
    (h : (tokenize o text).reports = []) :
    (startOfUnit o text).IsQuiet ∧ (startOfUnit o text).queue = {} := by
  rw [← foreseen_startOfUnit, Progress.foreseen, List.append_eq_nil_iff] at h
  obtain ⟨hqueue, hahead⟩ := h
  refine ⟨List.flatMap_eq_nil_iff.1 hahead, ?_⟩
  revert hqueue
  unfold startOfUnit Progress.start
  split
  · exact fun _ => rfl
  · next i ahead _ =>
    intro hqueue
    rw [Progress.view, Queue.toList_append, List.append_eq_nil_iff] at hqueue
    rw [Progress.view, hqueue.2]
    rfl

/-- Two sources without lexical faults start alike. -/
theorem even_startOfUnit {o : LexicalOptions} {text text' : String}
    (h : (tokenize o text).reports = []) (h' : (tokenize o text').reports = []) :
    (startOfUnit o text).Even [] (startOfUnit o text') := by
  obtain ⟨hquiet, hqueue⟩ := quiet_startOfUnit h
  obtain ⟨hquiet', hqueue'⟩ := quiet_startOfUnit h'
  exact {
    closed_left := closed_startOfUnit o text
    closed_right := closed_startOfUnit o text'
    quiet_left := hquiet
    quiet_right := hquiet'
    clean := congrArg Queue.toList hqueue
    reported := congrArg Queue.toList hqueue'
    tallies := by
      rw [hqueue, hqueue']
      exact ⟨rfl, rfl, rfl⟩ }

/-! ## Sources without a fault -/

section

variable {o : ParseOptions} {kind : UnitKind} {text : String} {out : ParseOutput}
  {earlier later : List Symbol} {s : Symbol}

theorem ne_endOfFile_of_mem_separators (hs : s.token ∈ separators) : s.token ≠ .endOfFile := by
  intro he
  rw [he] at hs
  revert hs
  decide

/-- Behind the separator stands something that may stand there. -/
theorem exists_omission (hparse : parse o kind text = .ok out) (hclean : out.reports = [])
    (hsymbols : (tokenize o.lexical text).semantic = earlier ++ s :: later)
    (hs : IsSeparator earlier s) :
    ∃ H : Omission, H.separator = s ∧ H.next :: H.later = later ∧ H.limit = o.maxNesting := by
  have hmem := hs.mem_separators
  cases later with
  | nil =>
    obtain ⟨e, he, hend⟩ := semantic_eq_words o.lexical text
    have hlast := (List.append_inj' (he.symm.trans hsymbols) rfl).2
    rw [(List.cons.inj hlast).1] at hend
    exact absurd hend (ne_endOfFile_of_mem_separators hmem)
  | cons next later =>
    have hchain := isChain_semantic hparse hclean
    rw [hsymbols, List.isChain_append] at hchain
    have hmay : MayPrecede s next := (List.isChain_cons_cons.1 hchain.2.1).1
    have hwatched : ∀ t : Token, t ∈ separators → t ∈ watched ∧ t.behind = behindSeparator := by
      intro t
      cases t <;> decide
    obtain ⟨hwatch, hbehind⟩ := hwatched _ hmem
    have hnext : next.token ∈ behindSeparator := hbehind ▸ hmay hwatch
    refine ⟨⟨s, next, later, o.maxNesting, hmem, hnext, fun ht hclose => ?_⟩, rfl, rfl, rfl⟩
    have hinside := endsInParameters_of_closesFirst hparse hclean hsymbols ht hclose
    cases hs with
    | loop hs => rw [ht] at hs; cases hs
    | semicolon _ houtside => exact houtside hinside

/-- The separator is behind some symbol, which is not `RETURN`. -/
theorem exists_front (hparse : parse o kind text = .ok out) (hclean : out.reports = [])
    (hsymbols : (tokenize o.lexical text).semantic = earlier ++ s :: later)
    (hs : IsSeparator earlier s) : ∃ t front, earlier = t :: front ∧
      ((t :: front).getLast (List.cons_ne_nil t front)).token ≠ .kwReturn := by
  have hreturn : ∀ t ∈ earlier.getLast?, t.token ≠ .kwReturn := by
    cases hs with
    | semicolon _ _ hreturn => exact hreturn
    | loop hs =>
      have hchain := isChain_semantic hparse hclean
      rw [hsymbols, List.isChain_append] at hchain
      intro t ht hreturn
      have hmay : MayPrecede t s := hchain.2.2 t ht s rfl
      rw [MayPrecede, hreturn, hs] at hmay
      revert hmay
      decide
  cases earlier with
  | nil =>
    obtain ⟨t, w, ht, hstart⟩ := startsLike_of_parse_eq_ok hparse
    obtain ⟨rfl, -⟩ := List.cons.inj (ht.symm.trans hsymbols)
    have hne : ∀ t : Token, t ∈ separators → t ∉ startOf kind := by
      intro t
      cases kind <;> cases t <;> decide
    exact absurd hstart (hne _ hs.mem_separators)
  | cons t front =>
    exact ⟨t, front, rfl, hreturn _ (List.getLast?_eq_some_getLast (List.cons_ne_nil t front))⟩

/-- With the separator overwritten, the grammar starts on the same symbols without it. -/
theorem apart_startOfUnit {H : Omission} (hparse : parse o kind text = .ok out)
    (hclean : out.reports = [])
    (hsymbols : (tokenize o.lexical text).semantic = earlier ++ s :: later)
    (hs : IsSeparator earlier s) (hseparator : H.separator = s)
    (hlater : H.next :: H.later = later) :
    H.Apart (startOfUnit o.lexical text) (startOfUnit o.lexical (s.overwrittenIn text)) := by
  subst hseparator hlater
  have hlexical := reports_tokenize_eq_nil hparse hclean
  have htoken := ne_endOfFile_of_mem_separators hs.mem_separators
  have hmem : H.separator ∈ (tokenize o.lexical text).semantic := by
    rw [hsymbols]
    exact List.mem_append_right _ List.mem_cons_self
  have hspells := (stands_of_mem_symbolsOf
    (mem_symbolsOf_of_ne (List.mem_filter.1 hmem).1 htoken)).spells
  obtain ⟨hagain, hlexical'⟩ :=
    semantic_overwrittenIn (hs.overwritable hspells) hlexical hsymbols htoken
  obtain ⟨t, front, rfl, hreturn⟩ := exists_front hparse hclean hsymbols hs
  exact .before t front ((rest_startOfUnit _ _).trans hsymbols)
    ((rest_startOfUnit _ _).trans hagain) hreturn (even_startOfUnit hlexical hlexical')

/-- One missing separator costs one report and nothing else. Where a source that is parsed without
any report has a separator overwritten with spaces, it still has the same tree, and as many
declarations, procedures and statements are counted. The one report is that the next symbol is
unexpected and that the separator was expected. -/
theorem parse_overwrittenIn (hparse : parse o kind text = .ok out) (hclean : out.reports = [])
    (hsymbols : (tokenize o.lexical text).semantic = earlier ++ s :: later)
    (hs : IsSeparator earlier s) :
    ∃ out' next, parse o kind (s.overwrittenIn text) = .ok out' ∧ out'.tree = out.tree ∧
      out'.sexpr = out.sexpr ∧ out.stats.SameTallies out'.stats ∧ later.head? = some next ∧
      out'.reports = [{
        severity := .error, code := .unexpectedSymbol, line := next.line, column := next.column,
        found := next.token, lexeme := next.lexeme?, expected := Expected.token s.token }] := by
  obtain ⟨H, rfl, rfl, hlimit⟩ := exists_omission hparse hclean hsymbols hs
  have hapart : H.Apart _ _ := apart_startOfUnit hparse hclean hsymbols hs rfl rfl
  rw [parse_eq_outcomeOf] at hparse
  rcases hx : (compilationUnit o kind).exec (startOfUnit o.lexical text) with ⟨f | tree, q⟩
  · rw [hx] at hparse
    cases hparse
  rw [hx] at hparse
  cases hparse
  obtain ⟨q', hx', hreports, htallies⟩ := exec_compilationUnit_of_apart hlimit hapart hx hclean
  rw [parse_eq_outcomeOf, hx']
  exact ⟨_, H.next, rfl, rfl, rfl, ⟨htallies.declarations, htallies.procedures,
    htallies.statements⟩, rfl, hreports⟩

/-- Without its `DO`, the loop is read all the same. -/
theorem parse_overwrittenIn_do : ∃ out out',
    parse {} .any "MODULE m; BEGIN WHILE a DO b END END m." = .ok out ∧ out.reports = [] ∧
      parse {} .any "MODULE m; BEGIN WHILE a    b END END m." = .ok out' ∧ out'.tree = out.tree ∧
      out'.reports = [{
        severity := .error, code := .unexpectedSymbol, line := 1, column := 28,
        found := Token.stdIdent, lexeme := "b", expected := Expected.token .kwDo }] := by
  have hempty :
      (parseReports {} .any "MODULE m; BEGIN WHILE a DO b END END m.").isEmpty = true := by
    decide +kernel
  have hok : (parse {} .any "MODULE m; BEGIN WHILE a DO b END END m.").isOk = true := by
    decide +kernel
  cases hparse : parse {} .any "MODULE m; BEGIN WHILE a DO b END END m." with
  | error e => rw [hparse] at hok; cases hok
  | ok out =>
    rw [parseReports_of_parse_eq_ok hparse] at hempty
    have hsymbols : (tokenize {} "MODULE m; BEGIN WHILE a DO b END END m.").semantic =
        (tokenize {} "MODULE m; BEGIN WHILE a DO b END END m.").semantic.take 6 ++
          ⟨.kwDo, "DO", ⟨24, 1, 25⟩⟩ :: ⟨.stdIdent, "b", ⟨27, 1, 28⟩⟩ ::
            (tokenize {} "MODULE m; BEGIN WHILE a DO b END END m.").semantic.drop 8 := by
      decide +kernel
    obtain ⟨out', next, hparse', htree, -, -, hnext, hreports⟩ :=
      parse_overwrittenIn hparse (List.isEmpty_iff.1 hempty) hsymbols (.loop rfl)
    obtain rfl := Option.some.inj hnext
    have htext : Symbol.overwrittenIn ⟨.kwDo, "DO", ⟨24, 1, 25⟩⟩
        "MODULE m; BEGIN WHILE a DO b END END m." = "MODULE m; BEGIN WHILE a    b END END m." := by
      decide +kernel
    exact ⟨out, out', rfl, List.isEmpty_iff.1 hempty, htext ▸ hparse', htree, hreports⟩

end

end Modula
