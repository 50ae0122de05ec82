import Modula.Proofs.ExactReading
import Modula.Proofs.Rendering

/-!
# Legible texts

A row of symbols can be written on lines of their own. If each of the texts is legible, which is
seen from the text alone, the lexical rules read the row back, and report nothing.
-/

namespace Modula

open Chunk

theorem Token.isComment_of_isTrivia_eq_false {t : Token} (h : t.isTrivia = false) :
    t.isComment = false := by
  revert h
  cases t <;> decide

/-- In front of a line feed the text is read as the symbol, without a fault, and the grammar sees
it. -/
def Unplaced.isLegible (o : LexicalOptions) (s : Unplaced) : Bool :=
  match s.text.toList with
  | [] => false
  | c :: u =>
    let piece := Chunk.first o .start c (u ++ ['\n'])
    piece.token? == some s.token && piece.text == c :: u && piece.reports.isEmpty &&
      !s.token.isTrivia

/-- A token in its own spelling is legible. -/
theorem Unplaced.IsSpelled.isLegible {s : Unplaced} (h : s.IsSpelled) (o : LexicalOptions) :
    s.isLegible o = true := by
  -- Whether comments are kept is not asked by the lexical rules.
  have hkept : s.isLegible o = s.isLegible ⟨o.dollar, o.lowline, true⟩ := rfl
  have hall : ∀ dollar lowline : Bool, ∀ t ∈ Token.all, t.spelling?.isSome = true →
      (ofToken t).isLegible ⟨dollar, lowline, true⟩ = true := by decide +kernel
  rw [hkept]
  obtain ⟨t, text⟩ := s
  have htext : t.spelling? = some text := h
  have hs : ofToken t = ⟨t, text⟩ := by rw [ofToken, htext]; rfl
  rw [← hs]
  exact hall o.dollar o.lowline t (Token.mem_all t) (by rw [htext]; rfl)

/-- The texts, each on a line of its own. -/
def written (u : List Unplaced) : String := "\n".intercalate (u.map Unplaced.text)

namespace Chunk

variable {o : LexicalOptions}

theorem exists_of_isLegible {s : Unplaced} (h : s.isLegible o = true) :
    ∃ c u, s.text.toList = c :: u ∧ isBlank c = false ∧ s.token.isTrivia = false ∧
      ∀ q back, Breaks back →
        (first o q c (u ++ back)).token? = some s.token ∧
          (first o q c (u ++ back)).text = c :: u ∧ (first o q c (u ++ back)).extent = c :: u ∧
          (first o q c (u ++ back)).reports = [] := by
  unfold Unplaced.isLegible at h
  cases htext : s.text.toList with
  | nil => rw [htext] at h; cases h
  | cons c u =>
    rw [htext] at h
    simp only [Bool.and_eq_true, beq_iff_eq, List.isEmpty_iff, Bool.not_eq_true'] at h
    obtain ⟨⟨⟨htoken, hown⟩, hreports⟩, htrivia⟩ := h
    obtain ⟨v, back, hsplit, hv, hagain⟩ := first_append_of_token? htoken
    obtain rfl : u = v := (List.cons.inj (hown.symm.trans hv)).2
    obtain rfl : ['\n'] = back := List.append_cancel_left hsplit
    refine ⟨c, u, rfl, (exists_reading_of_token? htoken).1, htrivia, fun q back hback => ?_⟩
    have hreplaces : Replaces back ['\n'] := ⟨hback, nofun⟩
    obtain ⟨ht, hu, hextent, hcodes⟩ :=
      hagain q back hreplaces.passesFor fun _ => hreplaces.head?_ne
    rw [hreports] at hcodes
    exact ⟨ht, hu, hextent, List.map_eq_nil_iff.1 hcodes⟩

/-- A row of legible symbols is read back from lines. -/
theorem cut_of_isLegible {symbols : List Symbol}
    (h : ∀ s ∈ symbols, s.unplaced.isLegible o = true) (q : Position) :
    (Chunk.symbols o q (render symbols)).map Symbol.unplaced = symbols.map Symbol.unplaced ∧
      (cut o q (render symbols)).flatMap reports = [] := by
  induction symbols generalizing q with
  | nil => simp [Chunk.symbols, render]
  | cons s later ih =>
    obtain ⟨hs, hlater⟩ := List.forall_mem_cons.1 h
    obtain ⟨c, u, htext, -, htrivia, hread⟩ := exists_of_isLegible hs
    obtain ⟨ht, hu, hextent, hreports⟩ := hread q _ (breaks_renderBehind later)
    have hrender : render (s :: later) = c :: (u ++ renderBehind later) := by
      rw [render_cons, show s.text.toList = c :: u from htext]
      rfl
    have hsplit : c :: (u ++ renderBehind later) =
        (first o q c (u ++ renderBehind later)).extent ++ renderBehind later := by
      rw [hextent]
      rfl
    have hstarts : ∀ s ∈ later, ∃ c u, s.text.toList = c :: u ∧ isBlank c = false := by
      intro s hs
      obtain ⟨c, u, htext, hc, -⟩ := exists_of_isLegible (hlater s hs)
      exact ⟨c, u, htext, hc⟩
    obtain ⟨q', hsymbols, hfaults⟩ := exists_cut_renderBehind (o := o) hstarts
      (q.after (first o q c (u ++ renderBehind later)).extent)
    have hkept : (first o q c (u ++ renderBehind later)).symbol? o =
        some ⟨s.token, String.ofList (c :: u),
          (first o q c (u ++ renderBehind later)).position⟩ := by
      have hcomment : s.token.isComment = false := Token.isComment_of_isTrivia_eq_false htrivia
      rw [symbol?, Scanned.keptToken?, ht, hu]
      simp [Symbol.unplaced, hcomment]
    rw [hrender, symbols_of_extent hsplit, reports_cut_of_extent hsplit, hsymbols, hfaults, hkept,
      hreports]
    obtain ⟨hplaceless, hnone⟩ := ih hlater q'
    refine ⟨?_, hnone⟩
    rw [Option.toList_some, List.singleton_append, List.map_cons, hplaceless, List.map_cons]
    refine congrArg (· :: _) ?_
    rw [Symbol.unplaced, Symbol.unplaced, ← htext, String.ofList_toList]
    rfl

end Chunk

/-- A row of legible symbols is read back from lines, and nothing is reported. -/
theorem words_written {o : LexicalOptions} {u : List Unplaced}
    (h : ∀ s ∈ u, s.isLegible o = true) :
    (tokenize o (written u)).words.map Symbol.unplaced = u ∧
      (tokenize o (written u)).reports = [] := by
  let placed : List Symbol := u.map fun s => ⟨s.token, s.text, .start⟩
  have hplaced : placed.map Symbol.unplaced = u := by
    rw [List.map_map]
    exact List.map_id u
  have htext : (written u).toList = render placed := by
    rw [written, String.toList_intercalate, List.map_map, render, List.map_map]
    rfl
  have hlegible : ∀ s ∈ placed, s.unplaced.isLegible o = true :=
    List.forall_mem_map.2 fun s hs => h s hs
  obtain ⟨hsymbols, hreports⟩ := cut_of_isLegible hlegible .start
  rw [← htext, hplaced] at hsymbols
  rw [← htext] at hreports
  have hseen : ∀ s ∈ symbolsOf o (written u), s.token.isTrivia = false := by
    intro s hs
    have hmem : s.unplaced ∈ u := hsymbols ▸ List.mem_map_of_mem hs
    obtain ⟨-, -, -, -, htrivia, -⟩ := exists_of_isLegible (h _ hmem)
    exact htrivia
  have hsemantic : (tokenize o (written u)).semantic = symbolsOf o (written u) ++
      [⟨.endOfFile, "", Position.start.after (written u).toList⟩] := by
    rw [Tokenized.semantic, symbols_tokenize, List.filter_append,
      List.filter_eq_self.2 fun s hs => by rw [hseen s hs]; rfl]
    rfl
  obtain ⟨e, he, -⟩ := semantic_eq_words o (written u)
  rw [List.append_inj_left' (he.symm.trans hsemantic) rfl, reports_tokenize]
  exact ⟨hsymbols, hreports⟩

end Modula
