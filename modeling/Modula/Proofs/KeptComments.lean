import Modula.Proofs.AlikeRules
import Modula.Proofs.LexicalFacts
import Modula.Proofs.Pieces

/-!
# Comments that are kept

Comments are symbols or blanks, as the lexical modes say. A source is cut into the same pieces
either way. Where comments are blanks, their faults are handed on to the next symbol; where they are
symbols, the grammar puts them aside, and their faults come into view together with the symbol
behind them. So two parses of a source, with comments and without, go the same way step by step,
and only what was put aside differs.
-/

namespace Modula

open Modula.Parser Modula.Grammar

/-- The modes in which comments are symbols, or those in which they are blanks. -/
def LexicalOptions.withComments (o : LexicalOptions) (kept : Bool) : LexicalOptions :=
  { o with comments := kept }

/-- The options with comments as symbols, or as blanks. -/
def ParseOptions.withComments (o : ParseOptions) (kept : Bool) : ParseOptions :=
  { o with lexical := o.lexical.withComments kept }

/-- The symbols that are no comments. -/
def withoutComments (symbols : List Symbol) : List Symbol := symbols.filter (!·.token.isComment)

/-! ## Symbols -/

/-- Pieces are cut without regard to what becomes of comments. -/
theorem Chunk.cut_withComments (o : LexicalOptions) (kept : Bool) (p : Position)
    (text : List Char) : cut (o.withComments kept) p text = cut o p text := by
  induction p, text using cut_induction o with
  | nil p => rw [cut_nil, cut_nil]
  | cons p c rest behind htext ih =>
    have hfirst : first (o.withComments kept) p c rest = first o p c rest := rfl
    rw [cut_of_extent htext, cut_of_extent (hfirst ▸ htext), hfirst, ih]

/-- The second list has the symbols of the first one that are no comments, and the same faults. -/
structure Tokenized.SameButComments (t t' : Tokenized) : Prop where
  symbols : t'.symbols = withoutComments t.symbols
  texts : ∀ s ∈ t'.symbols, t'.text s = t.text s
  reports : t'.reports = t.reports

section

variable (o : LexicalOptions) (text : String)

theorem piecesOf_withComments (kept : Bool) :
    piecesOf (o.withComments kept) text = piecesOf o text :=
  Chunk.cut_withComments o kept .start text.toList

theorem symbols_tokenize_withComments :
    (tokenize (o.withComments false) text).symbols =
      withoutComments (tokenize (o.withComments true) text).symbols := by
  have hall (kept : Bool) : allSymbolsOf (o.withComments kept) text = allSymbolsOf o text := by
    rw [allSymbolsOf, piecesOf_withComments, allSymbolsOf]
  have hkept : symbolsOf (o.withComments true) text = allSymbolsOf o text := by
    rw [symbolsOf_eq_filter, hall]
    exact List.filter_eq_self.2 fun _ _ => rfl
  have hdropped :
      symbolsOf (o.withComments false) text = withoutComments (allSymbolsOf o text) := by
    rw [symbolsOf_eq_filter, hall]
    rfl
  rw [symbols_tokenize, symbols_tokenize, hkept, hdropped, withoutComments, withoutComments,
    List.filter_append]
  rfl

theorem tokenize_sameButComments :
    (tokenize (o.withComments true) text).SameButComments
      (tokenize (o.withComments false) text) where
  symbols := symbols_tokenize_withComments o text
  texts s hs := by
    have hs' : s ∈ (tokenize (o.withComments true) text).symbols := by
      rw [symbols_tokenize_withComments] at hs
      exact (List.mem_filter.1 hs).1
    cases hlex : s.token.hasLexeme with
    | true => rw [text_of_hasLexeme hs hlex, text_of_hasLexeme hs' hlex]
    | false => rw [text_of_not_hasLexeme hlex, text_of_not_hasLexeme hlex]
  reports := by
    rw [reports_tokenize, reports_tokenize, piecesOf_withComments, piecesOf_withComments]

end

/-! ## Items -/

namespace Item

/-- The item without the comments in front of its symbol. -/
def dropComments (i : Item) : Item := { i with trivia := withoutComments i.trivia }

/-- The items with more faults in front of the first. -/
def delay (reports : List Diagnostic) : List Item → List Item
  | [] => []
  | i :: later => { i with reports := reports ++ i.reports } :: later

theorem map_dropComments_delay (reports : List Diagnostic) (items : List Item) :
    (delay reports items).map dropComments = delay reports (items.map dropComments) := by
  cases items <;> rfl

/-- Faults that are handed on to the next symbol come into view with it. -/
theorem ofStream_delay (reports : List Diagnostic) (stream : List Scanned) :
    ofStream (Scanned.delay reports stream) = delay reports (ofStream stream) := by
  cases stream with
  | nil => rfl
  | cons s later =>
    change consScanned { s with reports := reports ++ s.reports } (ofStream later) =
      delay reports (consScanned s (ofStream later))
    unfold consScanned
    by_cases ht : s.symbol.token.isTrivia = true
    · rw [if_pos ht, if_pos ht]
      cases ofStream later with
      | nil => rfl
      | cons i items => simp only [delay, List.append_assoc]
    · rw [if_neg ht, if_neg ht]
      rfl

/-- A comment is put aside, and its faults are those of the symbol behind it. -/
theorem dropComments_consScanned_of_isComment {s : Scanned} (h : s.symbol.token.isComment = true)
    (items : List Item) :
    (consScanned s items).map dropComments = delay s.reports (items.map dropComments) := by
  have ht : s.symbol.token.isTrivia = true := by
    revert h
    cases s.symbol.token <;> decide
  unfold consScanned
  rw [if_pos ht]
  cases items with
  | nil => rfl
  | cons i items => simp [delay, dropComments, withoutComments, h]

/-- All else is put aside or seen as without comments. -/
theorem dropComments_consScanned {s : Scanned} (h : s.symbol.token.isComment = false)
    (items : List Item) :
    (consScanned s items).map dropComments = consScanned s (items.map dropComments) := by
  unfold consScanned
  split
  · cases items with
    | nil => rfl
    | cons i items => simp [dropComments, withoutComments, h]
  · rfl

/-- One piece more in front of streams with comments and without. -/
theorem ofStream_consChunk (o : LexicalOptions) (k : Chunk) {stream stream' : List Scanned}
    (h : ofStream stream' = (ofStream stream).map dropComments) :
    ofStream (Scanned.consChunk (o.withComments false) k stream') =
      (ofStream (Scanned.consChunk (o.withComments true) k stream)).map dropComments := by
  have hkept (kept : Bool) : Scanned.keptToken? (o.withComments kept) k =
      k.token?.filter fun t => kept || !t.isComment := rfl
  unfold Scanned.consChunk
  rw [hkept, hkept]
  cases k.token? with
  | none =>
    simp only [Option.filter_none]
    rw [ofStream_delay, ofStream_delay, h, map_dropComments_delay]
  | some t =>
    cases hc : t.isComment with
    | true =>
      simp only [Option.filter_some, hc, Bool.not_true, Bool.or_false, Bool.true_or, if_true,
        Bool.false_eq_true, if_false]
      rw [ofStream_delay, h]
      exact (dropComments_consScanned_of_isComment
        (s := ⟨⟨t, String.ofList k.text, k.position⟩, k.reports⟩) hc _).symm
    | false =>
      simp only [Option.filter_some, hc, Bool.not_false, Bool.or_true, if_true]
      change consScanned _ (ofStream stream') = (consScanned _ (ofStream stream)).map dropComments
      rw [h]
      exact (dropComments_consScanned hc _).symm

theorem ofStream_withComments (o : LexicalOptions) (text : String) :
    ofStream (Scanned.stream (o.withComments false) text) =
      (ofStream (Scanned.stream (o.withComments true) text)).map dropComments := by
  unfold Scanned.stream
  rw [Chunk.cut_withComments, Chunk.cut_withComments]
  induction Chunk.cut o .start text.toList with
  | nil => rfl
  | cons k chunks ih => exact ofStream_consChunk o k ih

end Item

/-! ## Two runs -/

/-- Points of two runs at the same symbol with the same notes. In front of the second run there are
no comments, and it has put none aside. -/
structure Progress.SameButComments (p p' : Progress) : Prop where
  lookahead : p'.lookahead = p.lookahead
  ahead : p'.ahead = p.ahead.map Item.dropComments
  queue : p'.queue = p.queue
  trivia : p'.trivia.toList = withoutComments p.trivia.toList

namespace Progress.SameButComments

variable {p p' : Progress}

theorem view (hqueue : p'.queue = p.queue)
    (htrivia : p'.trivia.toList = withoutComments p.trivia.toList) (i : Item) (ahead : List Item) :
    (p.view i ahead).SameButComments (p'.view i.dropComments (ahead.map Item.dropComments)) where
  lookahead := rfl
  ahead := rfl
  queue := congrArg (Queue.append · i.reports) hqueue
  trivia := by
    rw [toList_trivia_view, toList_trivia_view, htrivia, withoutComments, withoutComments,
      List.filter_append]
    rfl

theorem advance (h : p.SameButComments p') : p.advance.SameButComments p'.advance := by
  unfold Progress.advance
  rw [h.ahead]
  cases p.ahead with
  | nil => exact h
  | cons i ahead => exact view h.queue h.trivia i ahead

theorem report (h : p.SameButComments p') (d : Diagnostic) :
    (p.report d).SameButComments (p'.report d) :=
  ⟨h.lookahead, h.ahead, congrArg (Queue.push · d) h.queue, h.trivia⟩

theorem count (h : p.SameButComments p') (f : Statistics → Statistics) :
    (p.count f).SameButComments (p'.count f) := by
  refine ⟨h.lookahead, h.ahead, ?_, h.trivia⟩
  rw [Progress.count, Progress.count, h.queue]

theorem startOfUnit (o : LexicalOptions) (text : String) :
    (startOfUnit (o.withComments true) text).SameButComments
      (startOfUnit (o.withComments false) text) := by
  unfold Modula.startOfUnit
  rw [Item.ofStream_withComments]
  cases Item.ofStream (Scanned.stream (o.withComments true) text) with
  | nil => exact ⟨rfl, rfl, rfl, rfl⟩
  | cons i ahead => exact view (p := .blank) rfl rfl i ahead

end Progress.SameButComments

/-- Runs are alike if only comments put aside make a difference, and they fail together. -/
def Likeness.commentsAside (limit : Nat) : Likeness where
  symbol := Eq
  progress := Progress.SameButComments
  failed f q f'? q' := f'? = some f ∧ q.SameButComments q'
  limit := limit
  normal_eq := @Symbol.normal_eq_of_eq
  text_eq_iff := @Symbol.text_eq_iff_of_eq
  lookahead h := h.lookahead.symm
  length_ahead h := by rw [h.ahead, List.length_map]
  advance h := h.advance
  report hp hd := hd.eq ▸ hp.report _
  count hp _ := hp.count _
  endless hq := ⟨rfl, hq⟩
  failed_later hf _ := nomatch hf.1

section

variable (o : ParseOptions) (kind : UnitKind)

/-- Where no level is left, both runs give up at the same symbol. -/
theorem alike_nested_commentsAside (x : Nested) :
    Alike (.commentsAside o.maxNesting) (nested (o.withComments true) 0 x)
      (nested (o.withComments false) 0 x) := by
  refine ⟨fun p p' hp => .failed (f := .failed (.nestingTooDeep o.maxNesting)) ⟨rfl, ?_⟩⟩
  change (p.report (faultAt .nestingTooDeep p.lookahead)).SameButComments
    (p'.report (faultAt .nestingTooDeep p'.lookahead))
  have hp : p.SameButComments p' := hp
  rw [hp.lookahead]
  exact hp.report _

theorem ends_withComments {p p' : Progress} (hp : p.SameButComments p') :
    (Likeness.commentsAside o.maxNesting).Ends (Comparable.rel (.commentsAside o.maxNesting))
      ((compilationUnit (o.withComments true) kind).exec p)
      ((compilationUnit (o.withComments false) kind).exec p') := by
  have hlike : (Likeness.commentsAside o.maxNesting).progress p p' := hp
  by_cases hstart : p.lookahead.token ∈ startOf kind
  · have hgrammar : (o.withComments true).SameGrammar (o.withComments false) := ⟨rfl, rfl⟩
    have := hgrammar.alike (L := .commentsAside o.maxNesting)
    have hle : (o.withComments true).maxNesting ≤ (o.withComments false).maxNesting := Nat.le_refl _
    have hzero : (o.withComments false).maxNesting - (o.withComments true).maxNesting = 0 :=
      Nat.sub_self _
    refine ends_compilationUnit rfl hle (fun x => ?_) hlike hstart
    rw [hzero]
    exact alike_nested_commentsAside o x
  · rw [exec_compilationUnit_of_not_mem hstart,
      exec_compilationUnit_of_not_mem (hp.lookahead ▸ hstart), hp.lookahead]
    exact .failed ⟨rfl, hp.report _⟩

end

/-! ## Two parses -/

/-- Two parses come to the same end, with the same tree, the same counts and the same faults. What
the second one put aside are the symbols that the first one put aside and that are no comments. -/
inductive SameEndButComments :
    Except ParseFailure ParseOutput → Except ParseFailure ParseOutput → Prop where
  /-- Both come to a tree. -/
  | withTree {out out' : ParseOutput} (tree : out'.tree = out.tree)
    (stats : out'.stats = out.stats) (reports : out'.reports = out.reports)
    (trivia : out'.trivia = withoutComments out.trivia) : SameEndButComments (.ok out) (.ok out')
  /-- Both fail alike. -/
  | failed (e : ParseFailure) : SameEndButComments (.error e) (.error e)

theorem sameEndButComments_of_ends {n : Nat} {x x' : Except Stop Node × Progress}
    (h : (Likeness.commentsAside n).Ends (Comparable.rel (.commentsAside n)) x x')
    (o o' : LexicalOptions) (text : String) :
    SameEndButComments (outcomeOf o text x) (outcomeOf o' text x') := by
  cases h with
  | @answered t t' q q' ht hq =>
    have ht : t = t' := Tree.Corresponds.eq ht
    have hq : q.SameButComments q' := hq
    subst ht
    refine .withTree rfl ?_ (congrArg Queue.toList hq.queue) hq.trivia
    exact congrArg (fun s : Statistics => { s with lines := Text.lineCount text })
      (congrArg Queue.stats hq.queue)
  | @failed f q q' x' hf =>
    obtain ⟨hx', hq⟩ := hf
    cases x' with
    | ok => cases hx'
    | error f' =>
      cases hx'
      have hq : q.SameButComments q' := hq
      rw [outcomeOf, outcomeOf, hq.queue]
      exact .failed _

/-- To keep comments adds comments and nothing else. The symbols of a source with its comments left
out are the symbols that are read where comments are blanks, at the same places and with the same
texts, and the same faults are found. Parses in the two modes come to the same end, with the same
tree, faults and counts, and put the same symbols aside but for the comments. -/
theorem comments_add_comments_only (o : ParseOptions) (kind : UnitKind) (text : String) :
    (tokenize (o.lexical.withComments true) text).SameButComments
        (tokenize (o.lexical.withComments false) text) ∧
      SameEndButComments (parse (o.withComments true) kind text)
        (parse (o.withComments false) kind text) := by
  refine ⟨tokenize_sameButComments o.lexical text, ?_⟩
  rw [parse_eq_outcomeOf, parse_eq_outcomeOf]
  exact sameEndButComments_of_ends (ends_withComments o kind (.startOfUnit o.lexical text)) _ _ text

end Modula
