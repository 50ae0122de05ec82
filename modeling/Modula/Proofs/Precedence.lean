import Modula.Proofs.LegibleTexts
import Modula.Proofs.Outcome
import Modula.Proofs.ReadBack

/-!
# Precedence and associativity

An expression that is written as its tree asks for is read as that tree: wherever an expression may
stand, and so in a module that assigns it to a variable.
-/

namespace Modula

open Modula.Parser Modula.Grammar

/-! ## A module with one assignment -/

/-- The symbols of a module with a name that assigns an expression to a variable. -/
def assigning (name target : Unplaced) (u : List Unplaced) : List Unplaced :=
  [.ofToken .kwModule, name, .ofToken .semicolon, .ofToken .kwBegin, target, .ofToken .assign] ++
    (u ++ [.ofToken .kwEnd, name, .ofToken .dot])

/-- The tree of such a module. -/
def assigningTree (name target : Unplaced) (t : Tree String) : Tree String :=
  .branch .programModule
    [.leaf .ident name.text, .empty,
      .branch .block
        [.empty,
          .branch .statementSequence [.branch .assignment [.leaf .ident target.text, t]]]]

section

variable {o : ParseOptions} {call : Call} {t : Tree String} {u : List Unplaced}
  {name target : Unplaced}

theorem reads_moduleHeader (hname : name.token ∈ identStart) {stop : Token → Prop} :
    Reads moduleHeader (IsLeaf .ident name)
      [.ofToken .kwModule, name, .ofToken .semicolon] stop := by
  refine .expect_seq rfl (by decide) _ ?_
  refine (ReadsOn.ident hname _).seq (fun n hn => ?_) (.any _)
  exact .expect_seq rfl (by decide) _ (.answer n hn)

theorem reads_importList : Reads importList (· = .empty) [] (· ∉ importStart) := by
  refine ReadsOn.none_of_row.bind.stopped (fun imports himports => ?_) fun _ => id
  subst himports
  exact .answer _ rfl

theorem reads_declarationList :
    Reads (declarationList o call .declarations) (· = .empty) [] (· = .kwBegin) := by
  have hloop : Reads (loop (declarationRound o call .declarations) []) (· = []) []
      (· = .kwBegin) := by
    refine .done (.at_token (.nil fun _ => id) ?_)
    refine .ifAtAny_yes (.nil ?_) (.answer _ ⟨[], rfl, rfl⟩)
    rintro _ rfl
    decide
  refine hloop.bind.stopped (fun sections hsections => ?_) fun _ => id
  subst hsections
  exact .answer _ rfl

theorem statementRule?_of_mem_identStart {t : Token} (h : t ∈ identStart) :
    statementRule? o call t = some (assignmentOrCall call) := by
  have hcases : t = .stdIdent ∨ t = .foreignIdent ∨ t = .malformedIdent := by
    revert h
    cases t <;> decide
  rcases hcases with rfl | rfl | rfl <;> rfl

theorem reads_assignment (htarget : target.token ∈ identStart)
    (h : Reads (call .expression) (HasTexts t) u Place.expression.Allows) :
    Reads (statement o call) (HasTexts (.branch .assignment [.leaf .ident target.text, t]))
      (target :: .ofToken .assign :: u) Place.expression.Allows := by
  have hassignment : Reads (assignmentOrCall call)
      (HasTexts (.branch .assignment [.leaf .ident target.text, t]))
      ([target] ++ .ofToken .assign :: u) Place.expression.Allows := by
    refine (readsDesignator_ident htarget).reads.seq (fun d hd => ?_) (.cons (by decide))
    refine .at_token (.cons rfl) (.word (by decide) ?_)
    exact h.bind.stopped (fun value hvalue => .answer _ (hd.branch_two hvalue)) fun _ => id
  refine .token (.cons rfl) fun s hs => ?_
  subst hs
  rw [statementRule?_of_mem_identStart htarget]
  refine hassignment.bind.stopped (fun node hnode => ?_) fun _ => id
  exact (ReadsOn.count _).bind.stopped (fun _ _ => .answer node hnode) fun _ => id

/-- A sequence of one statement. -/
theorem reads_statementSequence {F : TokenSet} (hu : StartsIn F u)
    (hF : ∀ t ∈ F, t ∉ statementsEnd) (ht : t.isEmpty = false)
    (h : Reads (call .statement) (HasTexts t) u (· = .kwEnd)) :
    Reads (statementSequence o call) (HasTexts (.branch .statementSequence [t])) u
      (· = .kwEnd) := by
  have hround : Reads
      (loop (semicolonRound o statementStart statementsEnd (call .statement)) [])
      (fun ns => ∃ n, ns = [n] ∧ HasTexts t n) u (· = .kwEnd) := by
    refine .done (h.bind.stopped (fun n hn => ?_) fun _ => id)
    rw [hn.isEmpty_eq, ht]
    refine .ifAt_no (.nil ?_) (.ifAtAny_no (.nil ?_) (.answer _ ⟨_, rfl, n, rfl, hn⟩))
    · rintro _ rfl
      decide
    · rintro _ rfl
      decide
  have hlist : Reads (semicolonList o statementStart statementsEnd (call .statement))
      (fun ns => ∃ n, ns = [n] ∧ HasTexts t n) u (· = .kwEnd) := by
    refine hround.map ?_
    rintro _ ⟨n, rfl, hn⟩
    exact ⟨n, rfl, hn⟩
  refine .ifAtAny_no (.of_startsIn hu hF) (hlist.bind.stopped ?_ fun _ => id)
  rintro _ ⟨n, rfl, hn⟩
  exact .answer _ hn.branch_one

/-- A block without declarations. -/
theorem reads_block
    (h : Reads (statementSequence o call) (HasTexts t) u (· = .kwEnd)) {stop : Token → Prop} :
    Reads (block o call) (HasTexts (.branch .block [.empty, t]))
      (.ofToken .kwBegin :: (u ++ [.ofToken .kwEnd])) stop := by
  refine reads_declarationList.seq (u := []) (fun declarations hdeclarations => ?_) (.cons rfl)
  subst hdeclarations
  have hbody : Reads (optionalAt .kwBegin (statementSequence o call)) (HasTexts t)
      (.ofToken .kwBegin :: u) (· = .kwEnd) := .ifAt_yes (.cons rfl) (.word (by decide) h)
  refine hbody.seq (fun body hbody => ?_) (.cons rfl)
  have hempty : HasTexts .empty .empty := rfl
  exact .expect_seq (t := .kwEnd) rfl (by decide) _ (.answer _ (hempty.branch_two hbody))

theorem reads_unitClosing {i : Symbol} (hi : i.text = name.text)
    (hname : name.token ∈ identStart) :
    Reads (unitClosing (.leaf .ident i)) (fun _ => True) [name, .ofToken .dot]
      (· = .endOfFile) := by
  refine (ReadsOn.closing hname hi _).seq (fun _ _ => ?_) (.any _)
  refine .expect_seq (t := .dot) rfl (by decide) _ ?_
  exact .ifAt_yes (.nil fun _ => id) (.answer () trivial)

theorem reads_programModule {levels : Nat} (hlevels : o.maxNesting = levels + 1)
    (hname : name.token ∈ identStart) (htarget : target.token ∈ identStart)
    (h : Reads (nested o levels .expression) (HasTexts t) u Place.expression.Allows) :
    Reads (programModule o .programModule) (HasTexts (assigningTree name target t))
      (assigning name target u) (· = .endOfFile) := by
  have hstatement : Reads (outermost o .statement)
      (HasTexts (.branch .assignment [.leaf .ident target.text, t]))
      (target :: .ofToken .assign :: u) (· = .kwEnd) := by
    rw [outermost, hlevels]
    refine (reads_assignment htarget h).mono (fun _ => id) ?_
    rintro _ rfl
    decide
  have hbody : Reads (statementSequence o (outermost o)) (HasTexts (.branch .statementSequence
      [.branch .assignment [.leaf .ident target.text, t]])) (target :: .ofToken .assign :: u)
      (· = .kwEnd) := by
    refine reads_statementSequence ⟨target, _, rfl, htarget⟩ ?_ rfl hstatement
    intro t
    cases t <;> decide
  have hblock : Reads (block o (outermost o)) (HasTexts _) _ fun _ => True := reads_block hbody
  have hrow : assigning name target u = [.ofToken .kwModule, name, .ofToken .semicolon] ++
      ((.ofToken .kwBegin :: (target :: .ofToken .assign :: u ++ [.ofToken .kwEnd])) ++
        [name, .ofToken .dot]) := by
    simp [assigning]
  rw [hrow]
  refine (reads_moduleHeader hname).seq ?_ (.any _)
  rintro _ ⟨i, hi, rfl⟩
  refine reads_importList.seq (u := []) (fun imports himports => ?_) (.cons (by decide))
  subst himports
  refine hblock.seq (fun body hbody => ?_) (.any _)
  refine (reads_unitClosing (congrArg Unplaced.text hi) hname).bind.stopped (fun _ _ => ?_)
    fun _ => id
  refine .answer _ (.branch ?_)
  rw [List.map_cons, List.map_cons, List.map_singleton, hbody.map_eq, Tree.map_leaf,
    show i.text = name.text from congrArg Unplaced.text hi]
  rfl

end

/-! ## Parsing such a module -/

/-- A source with the symbols of a module that assigns a written expression is parsed into the tree
of the expression, and nothing is reported but what the lexical rules report. -/
theorem parse_assigning {n : Nat} {t : Tree String} {u : List Unplaced} {o : ParseOptions}
    {kind : UnitKind} {name target : Unplaced} {text : String}
    (h : Written n (.operand .expression t) u) (hname : name.token ∈ identStart)
    (htarget : target.token ∈ identStart) (hkind : kind ≠ .definition)
    (hn : n + 2 ≤ o.maxNesting)
    (hwords : (tokenize o.lexical text).words.map Symbol.unplaced = assigning name target u) :
    ∃ out, parse o kind text = .ok out ∧
      out.tree.map Symbol.text = assigningTree name target t ∧
      out.reports = (tokenize o.lexical text).reports := by
  obtain ⟨levels, hlevels⟩ := Nat.exists_eq_add_of_le' hn
  have hexpression : Reads (nested o (n + levels + 1) .expression) (HasTexts t) u
      Place.expression.Allows := h.isRead (Nat.le_add_right n levels)
  have hmax : o.maxNesting = n + levels + 1 + 1 := by omega
  have hmodule := reads_programModule hmax hname htarget hexpression
  obtain ⟨e, he, hend⟩ := semantic_eq_words o.lexical text
  have hcoming : (startOfUnit o.lexical text).coming =
      assigning name target u ++ [e.unplaced] := by
    rw [Progress.coming, rest_startOfUnit, he, List.map_append, hwords]
    rfl
  obtain ⟨tree, q, htree, hq, hx⟩ := hmodule _ _ _ (closed_startOfUnit o.lexical text) hcoming hend
  have hfirst : (startOfUnit o.lexical text).lookahead.token = .kwModule :=
    congrArg Unplaced.token (Progress.lookahead_of_coming hcoming)
  have hmem : (startOfUnit o.lexical text).lookahead.token ∈ startOf kind := by
    rw [hfirst]
    revert hkind
    cases kind <;> decide
  have hunit : (compilationUnit o kind).exec (startOfUnit o.lexical text) = (.ok tree, q) := by
    rw [exec_compilationUnit_of_mem hmem, hfirst]
    exact hx
  obtain ⟨out, hparse, rfl, hreports⟩ := parse_of_exec_ok hunit
  refine ⟨out, hparse, htree, ?_⟩
  have hlast : q.ahead = [] := by
    have hone : q.coming = [e.unplaced] := hq.coming_eq hcoming
    exact List.map_eq_nil_iff.1 (List.map_eq_nil_iff.1 (List.cons.inj hone).2)
  rw [hreports, ← foreseen_startOfUnit, ← hq.foreseen, Progress.foreseen, hlast]
  exact (List.append_nil _).symm

/-- The module is legible if the names and the expression are. -/
theorem isLegible_assigning {o : LexicalOptions} {name target : Unplaced} {u : List Unplaced}
    (h : ∀ s ∈ name :: target :: u, s.isLegible o = true) :
    ∀ s ∈ assigning name target u, s.isLegible o = true := by
  obtain ⟨hname, h⟩ := List.forall_mem_cons.1 h
  obtain ⟨htarget, hu⟩ := List.forall_mem_cons.1 h
  have hword {t : Token} (ht : (Unplaced.ofToken t).IsSpelled) :
      (Unplaced.ofToken t).isLegible o = true := ht.isLegible o
  unfold assigning
  simp only [List.forall_mem_append, List.forall_mem_cons]
  exact ⟨⟨hword rfl, hname, hword rfl, hword rfl, htarget, hword rfl, nofun⟩, hu, hword rfl, hname,
    hword rfl, nofun⟩

/-! ## The whole of it -/

/-- Every tree of an expression can be written, and where its leaves are legible, legibly. However
it is written, it is read back: by the rule for expressions, wherever something stands behind it
that cannot belong to it, and in the source of a module, be it any source with the symbols or one
with each symbol on a line of its own. -/
theorem written_expressions_are_read_back {t : Node} (h : IsExpression t) :
    (∃ n u, Written n (.operand .expression (t.map Symbol.text)) u ∧
      ∀ o, (∀ e ∈ t.values, e.2.unplaced.isLegible o = true) →
        ∀ s ∈ u, s.isLegible o = true) ∧
    ∀ n u, Written n (.operand .expression (t.map Symbol.text)) u →
      (∀ o levels, n ≤ levels →
        Reads (nested o (levels + 1) .expression) (HasTexts (t.map Symbol.text)) u
          Place.expression.Allows) ∧
      ∀ (o : ParseOptions) (kind : UnitKind) (name target : Unplaced),
        name.token ∈ identStart → target.token ∈ identStart → kind ≠ .definition →
        n + 2 ≤ o.maxNesting →
        (∀ text, (tokenize o.lexical text).words.map Symbol.unplaced = assigning name target u →
          ∃ out, parse o kind text = .ok out ∧
            out.tree.map Symbol.text = assigningTree name target (t.map Symbol.text) ∧
            out.reports = (tokenize o.lexical text).reports) ∧
        ((∀ s ∈ name :: target :: u, s.isLegible o.lexical = true) →
          ∃ out, parse o kind (written (assigning name target u)) = .ok out ∧
            out.tree.map Symbol.text = assigningTree name target (t.map Symbol.text) ∧
            out.reports = []) := by
  refine ⟨?_, fun n u hu => ⟨fun o levels hn => hu.isRead hn, ?_⟩⟩
  · obtain ⟨n, u, hu, hmade⟩ := h.canBeWritten .expression
    refine ⟨n, u, hu, fun o hlegible s hs => ?_⟩
    rcases hmade s hs with hleaf | hspelled
    · obtain ⟨e, he, rfl⟩ := List.mem_map.1 hleaf
      exact hlegible e he
    · exact hspelled.isLegible o
  · intro o kind name target hname htarget hkind hn
    refine ⟨fun text hwords => parse_assigning hu hname htarget hkind hn hwords,
      fun hlegible => ?_⟩
    obtain ⟨hwords, hreports⟩ := words_written (isLegible_assigning hlegible)
    obtain ⟨out, hparse, htree, hout⟩ := parse_assigning hu hname htarget hkind hn hwords
    exact ⟨out, hparse, htree, hout.trans hreports⟩

/-- The sign binds the product, and the sum is of the negated product. -/
theorem negated_product_in_sum_is_read_back :
    ∃ out, parse {} .any "MODULE m; BEGIN x := -a * b + c END m." = .ok out ∧
      out.tree.map Symbol.text =
        assigningTree ⟨.stdIdent, "m"⟩ ⟨.stdIdent, "x"⟩
          (.branch .plus
            [.branch .negation [.branch .times [.leaf .ident "a", .leaf .ident "b"]],
              .leaf .ident "c"]) ∧
      out.reports = [] := by
  have hident (text : String) : Fits true .expression (.leaf .ident ⟨.stdIdent, text, .start⟩) :=
    .terminal _ rfl (by decide)
  have hproduct : Fits true .expression (.branch .times
      [.leaf .ident ⟨.stdIdent, "a", .start⟩, .leaf .ident ⟨.stdIdent, "b", .start⟩]) :=
    .parts rfl (by decide) (.cons (hident "a") (.cons (hident "b") .nil))
  have hsum : Fits true .expression (.branch .plus [.branch .negation [.branch .times
      [.leaf .ident ⟨.stdIdent, "a", .start⟩, .leaf .ident ⟨.stdIdent, "b", .start⟩]],
      .leaf .ident ⟨.stdIdent, "c", .start⟩]) :=
    .parts rfl (by decide) (.cons (.parts rfl (by decide) (.cons hproduct .nil))
      (.cons (hident "c") .nil))
  have hleaf (text : String) :
      (Tree.leaf Kind.ident (⟨.stdIdent, text, .start⟩ : Symbol)).ListsFilled :=
    .node nofun nofun nofun
  have hexpression : IsExpression (.branch .plus [.branch .negation [.branch .times
      [.leaf .ident ⟨.stdIdent, "a", .start⟩, .leaf .ident ⟨.stdIdent, "b", .start⟩]],
      .leaf .ident ⟨.stdIdent, "c", .start⟩]) := by
    refine ⟨hsum, by simp [Token.terminalKind?], .node nofun nofun ?_⟩
    simp only [List.forall_mem_cons]
    refine ⟨.node nofun nofun ?_, hleaf "c", nofun⟩
    simp only [List.forall_mem_cons]
    refine ⟨.node nofun nofun ?_, nofun⟩
    simp only [List.forall_mem_cons]
    exact ⟨hleaf "a", hleaf "b", nofun⟩
  have hname (place : Place) (text : String) :
      Written 0 (.operand place (.leaf .ident text)) [⟨.stdIdent, text⟩] := by
    refine .plain (by cases place <;> decide) (.value ?_)
    exact .ident (i := ⟨.stdIdent, text⟩) (show Token.stdIdent ∈ identStart by decide)
  have hwritten : Written 0 (.operand .expression _) _ :=
    .plain (by decide) (.additive (s := .ofToken .plus) rfl
      (.plain (by decide) (.negation (s := .ofToken .minus) rfl
        (.plain (by decide) (.multiplicative (s := .ofToken .asterisk) rfl (hname .product "a")
          (hname .unary "b")))))
      (hname .product "c"))
  obtain ⟨-, hread⟩ := written_expressions_are_read_back hexpression
  obtain ⟨-, hmodule⟩ := hread 0 _ hwritten
  obtain ⟨hsource, -⟩ := hmodule {} .any ⟨.stdIdent, "m"⟩ ⟨.stdIdent, "x"⟩ (by decide) (by decide)
    nofun (by decide)
  obtain ⟨out, hparse, htree, hreports⟩ :=
    hsource "MODULE m; BEGIN x := -a * b + c END m." (by decide +kernel)
  refine ⟨out, hparse, htree, hreports.trans (List.isEmpty_iff.1 ?_)⟩
  decide +kernel

end Modula
