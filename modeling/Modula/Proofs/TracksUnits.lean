import Modula.Proofs.Outcome
import Modula.Proofs.TracksDeclarations

/-!
# Compilation units track the grammar

The nested constructs are tied together by an induction on the number of levels that may be opened:
each of them consumes a symbol before it calls another one, so as many levels as there are symbols
left are enough.
-/

namespace Modula.Grammar

open Modula.Parser

variable {α : Type} {d : Dialect} {n : Nat} {o : ParseOptions}

/-! ## Nested constructs -/

theorem tracks_nestedRule {k : Nat} {call : Call} (h : CallTracks d k n call)
    (ho : o.records = d.records) (x : Nested) :
    Tracks d (n + 1) x.entry x.nonterminal.follow (.rule x.nonterminal) (nestedRule o call x) := by
  cases x with
  | expression => exact tracks_expression h
  | statement => exact tracks_statement h
  | type => exact tracks_typeDenoter h ho
  | procedure => exact tracks_procedureDeclaration h
  | variantFields => exact tracks_variantFieldList h ho

theorem callTracks_nested (ho : o.records = d.records) (levels : Nat) :
    CallTracks d o.maxNesting levels (nested o levels) := by
  induction levels with
  | zero =>
    refine ⟨reliable_nested o 0, fun x => ⟨?_, fun p _ hl => ?_⟩⟩
    · exact ((reliable_nested o 0).composed x).grows
    · cases hl
  | succ levels ih => exact ⟨reliable_nested o (levels + 1), tracks_nestedRule ih ho⟩

/-! ## Imports -/

theorem tracks_importClause :
    Tracks d n (· ∈ importStart) Nonterminal.importClause.follow (.rule .importClause)
      importClause := by
  refine .rule ?_
  unfold importClause
  rw [ifAt_bind]
  refine .ifAt (.anyOf 1 rfl ?_ (by decide)) (.anyOf 0 rfl ?_ (by decide))
  · unfold unqualifiedImport
    simp only [bind_assoc, pure_bind]
    refine Tracks.within (.behindWord (by decide) fun _ => ?_) (Nat.le_succ n)
    refine .identThen fun module => .expectThen (by decide) fun _ => ?_
    exact (tracks_identList _).seq (by decide) fun names =>
      (Tracks.expect (by decide) _).last _
  · have himport : ∀ t, t ∈ importStart ∧ t ≠ .kwFrom → t = .kwImport := by decide
    have hmodules : Tracks d n Anywhere (tokens [.semicolon]) (.list .comma (.ident none))
        (separated .comma (ident behindImportedName)) :=
      .separated (G := allBut []) (k := 0) (by decide) (by decide) inferInstance
        (Tracks.ident _) (by decide) (by decide)
    unfold qualifiedImport
    simp only [bind_assoc, pure_bind]
    refine Tracks.within (.whenAt (.behindWord (by decide) fun _ => ?_) himport) (Nat.le_succ n)
    exact hmodules.seq (by decide) fun modules => (Tracks.expect (by decide) _).last _

theorem tracks_importList {F : TokenSet} (hF : ∀ t ∈ importStart, t ∉ F) :
    Tracks d n Anywhere F (.many (.rule .importClause)) importList := by
  unfold importList
  exact (Tracks.whileAtAny (k := 0) (by decide) rfl hF inferInstance consumes_importClause
    tracks_importClause (subset_allBut_nil _) (subset_allBut_nil _)).last _

/-! ## Modules -/

theorem tracks_unitClosing (s : Symbol) :
    Tracks d n Anywhere unitEnd (.seq (Ebnf.closer (!d.isTolerant) s) (.word .dot))
      (unitClosing (.leaf .ident s)) := by
  have hend : Tracks d n Anywhere unitEnd .empty
      (ifAt .endOfFile (return ()) (do unexpected (.token .endOfFile); skipTo unitEnd)) := by
    refine .ifAt (.pure ()) (.unexpected ?_ fun _ => Composed.grows (k := 0) inferInstance)
    decide
  unfold unitClosing
  refine (Tracks.closing s _).andThen fun _ => ?_
  exact .congr (.expectThen (by decide) fun _ => hend) (Ebnf.same_seq_empty _)

/-- A module: what stands behind its header, and its name again. -/
theorem tracks_module {b : Ebnf} {k : Node → Parser α} (hempty : Grows d (k .empty))
    (hk : ∀ s, Tracks d n Anywhere unitEnd
      (.seq b (.seq (Ebnf.closer (!d.isTolerant) s) (.word .dot))) (k (.leaf .ident s))) :
    Tracks d n Anywhere unitEnd
      (.chain [.word .kwModule, .named d (.seq (.word .semicolon) b), .word .dot])
      (moduleHeader >>= k) := by
  unfold moduleHeader
  simp only [bind_assoc, pure_bind]
  refine .expectThen (by decide) fun _ => .closedBy ?_ fun s => ?_
  · exact (Composed.grows (k := 0) inferInstance).bind fun _ => hempty
  · exact .congr (.expectThen (by decide) fun _ => hk s) (Ebnf.same_seq_assoc _ _ _).symm

variable (ho : o.records = d.records) (hn : n ≤ o.maxNesting)
include ho hn

theorem tracks_definitionModule :
    Tracks d n (· = .kwDefinition) unitEnd (.rule .definitionModule) (definitionModule o) := by
  have hcall := callTracks_nested ho o.maxNesting
  refine .rule ?_
  unfold definitionModule
  refine Tracks.within (.behindWord (by decide) fun _ => ?_) (Nat.le_succ n)
  refine tracks_module (Composed.grows (k := o.maxNesting) inferInstance) fun s => ?_
  refine .congr ((tracks_importList ?_).andThen fun imports => ?_) (Ebnf.same_seq_assoc _ _ _).symm
  · have hnone : ∀ t ∈ importStart,
        t ∉ (Ebnf.chain [.many (.rule .definition), .word .kwEnd]).first := by decide
    intro t ht hmem
    rw [Ebnf.mem_firstWith_seq, Ebnf.mem_firstWith_of_not_isNullable rfl] at hmem
    exact hnone t ht hmem
  refine .congr ?_ (Ebnf.same_seq_assoc _ _ _).symm
  refine ((tracks_declarationList hcall .definitions).within hn).seq ?_ fun definitions => ?_
  · refine TokenBitmap.isSubsetOf_iff.2 fun t ht => ?_
    rw [(Ebnf.mem_firstWith_word_seq (by decide)).1 ht]
    decide
  refine .expectThen (by decide) fun _ => ?_
  exact (tracks_unitClosing s).last _

theorem tracks_programModule (kind : Kind) :
    Tracks d n Anywhere unitEnd
      (.chain [.word .kwModule, .named d (.chain [.word .semicolon, .many (.rule .importClause),
        .rule .block]), .word .dot]) (programModule o kind) := by
  have hcall := callTracks_nested ho o.maxNesting
  unfold programModule
  refine tracks_module (Composed.grows (k := o.maxNesting) inferInstance) fun s => ?_
  refine .congr ((tracks_importList ?_).andThen fun imports => ?_) (Ebnf.same_seq_assoc _ _ _).symm
  · have hnone : ∀ t ∈ importStart, t ∉ (Ebnf.rule .block).first := by decide
    intro t ht hmem
    rw [Ebnf.mem_firstWith_seq, Ebnf.mem_firstWith_of_not_isNullable rfl] at hmem
    exact hnone t ht hmem
  refine ((tracks_block hcall).within hn).seq (subset_allBut_nil _) fun body => ?_
  exact (tracks_unitClosing s).last _

/-- The rule for a unit that starts with the token tracks compilation units. -/
theorem tracks_unitRule {t : Token} (ht : t ∈ unitStart) :
    Tracks d n (· = t) unitEnd (.rule .compilationUnit) (unitRule o t) := by
  have hmodule {u : Token} (hu : u ∈ (Ebnf.chain [.word .kwModule, .named d (.chain
      [.word .semicolon, .many (.rule .importClause), .rule .block]), .word .dot]).firstWith
        unitEnd) : u = .kwModule := (Ebnf.mem_firstWith_word_seq (by decide)).1 hu
  unfold unitRule
  split
  · exact .rule (.anyOf 0 rfl (tracks_definitionModule ho hn) (by decide))
  · refine .rule (.anyOf 1 rfl (.rule (.congr (.right ?_ ?_) (Ebnf.same_option_seq _ _).symm)) ?_)
    · exact Tracks.within (.behindWord (by decide) fun _ => tracks_programModule ho hn _)
        (Nat.le_succ n)
    · rintro u rfl hmem
      cases hmodule hmem
    · decide
  · next hdefinition himplementation =>
    have htoken : t = .kwModule := by
      revert t
      decide
    subst htoken
    refine .rule (.anyOf 1 rfl (.rule (.congr (.left ?_ ?_) (Ebnf.same_option_seq _ _).symm)) ?_)
    · exact (tracks_programModule ho hn _).whenAt fun _ _ => trivial
    · rintro u rfl hmem
      cases (Ebnf.mem_firstWith_word_seq (by decide)).1 hmem
    · decide

end Modula.Grammar
