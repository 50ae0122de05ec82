import Modula.Proofs.Rendering
import Modula.Proofs.Scanner

/-!
# Where symbols are read

A call for the next symbol passes over gaps until it arrives at a symbol. A place that calls arrive
at, one after the other from the start of the source, is one that everything in front of has been
read. What is read there is what a call gives out, behind the faults of the gaps passed on the way.
-/

namespace Modula

open Chunk

/-- Faults of gaps only. -/
def OfGapsOnly (ds : List Diagnostic) : Prop := ∀ d ∈ ds, d.code.isOfGaps = true

theorem OfGapsOnly.nil : OfGapsOnly [] := List.forall_mem_nil _

theorem OfGapsOnly.append {ds es : List Diagnostic} (h : OfGapsOnly ds) (h' : OfGapsOnly es) :
    OfGapsOnly (ds ++ es) :=
  List.forall_mem_append.2 ⟨h, h'⟩

/-- A piece that is no symbol has the faults of a gap. -/
theorem Chunk.ofGapsOnly_of_asSymbol?_eq_none {o : LexicalOptions} {p : Position} {c : Char}
    {rest : List Char} (h : (first o p c rest).asSymbol? = none) :
    OfGapsOnly (first o p c rest).reports := by
  have hown := ownCodes_of_token?_eq_none (Option.map_eq_none_iff.1 h)
  intro d hd
  have hcode := List.filter_eq_nil_iff.1 hown d.code (List.mem_map_of_mem hd)
  simpa using hcode

section

variable {p : Position} {c : Char} {rest : List Char} {r : Reading}

theorem Chunk.text_ofReading : (ofReading p c rest r).text = (c :: rest).take r.length := rfl

/-- Only behind a word an apostrophe is dropped. -/
theorem Chunk.dropped_ofReading_of_isAlpha_eq_false (h : c.isAlpha = false) :
    (ofReading p c rest r).dropped = [] := by
  simp [ofReading, h]

theorem Chunk.reports_ofReading_of_isAlpha_eq_false (h : c.isAlpha = false) :
    (ofReading p c rest r).reports = r.reports := by
  simp [ofReading, h]

end

theorem Scanned.ext {a b : Scanned} (hs : a.symbol = b.symbol) (hr : a.reports = b.reports) :
    a = b := by
  cases a
  cases b
  cases hs
  cases hr
  rfl

namespace Scanner

/-- The calls for the symbols of a source, one after the other, arrive at this place. -/
inductive Arrives (o : LexicalOptions) (source : String) : Scanner → Prop
  | start : Arrives o source (ofText o source)
  | behind {p : Position} {c : Char} {rest : List Char} (h : Arrives o source ⟨o, p, c :: rest⟩) :
    Arrives o source (skip ⟨o, p, c :: rest⟩ (first o p c rest))

/-- At this place of a source a symbol is read that has these faults. -/
structure Reads (o : LexicalOptions) (source : String) (s : Scanner) (x : Symbol)
    (ds : List Diagnostic) : Prop where
  position_eq : x.position = s.position
  /-- The text that is still to be read stands at the position. -/
  place : ∃ front, source.toList = front ++ s.rest ∧ s.position = Position.start.after front
  /-- The symbol is what a call gives out here, and the next call goes on behind its text. -/
  next_eq : ∃ behind, s.rest = x.text.toList ++ behind ∧
    s.next = (⟨x, ds⟩, ⟨o, s.position.after x.text.toList, behind⟩)
  /-- One of the calls for the symbols of the source gives it out. -/
  call_eq : ∃ n gaps, (ofText o source).call n = ⟨x, gaps ++ ds⟩ ∧ OfGapsOnly gaps

variable {o : LexicalOptions} {source : String} {s : Scanner} {p : Position} {c : Char}
  {rest : List Char}

namespace Arrives

theorem options_eq (h : Arrives o source s) : s.options = o := by
  cases h <;> rfl

/-- A place that calls arrive at is a place in the source. -/
theorem exists_front (h : Arrives o source s) :
    ∃ front, source.toList = front ++ s.rest ∧ s.position = Position.start.after front := by
  induction h with
  | start => exact ⟨[], rfl, rfl⟩
  | @behind p c rest h ih =>
    obtain ⟨front, hsource, hposition⟩ := ih
    obtain ⟨behind, hbehind⟩ := extent_first_prefix o p c rest
    rw [skip_of_extent hbehind.symm]
    refine ⟨front ++ (first o p c rest).extent, ?_, ?_⟩
    · rw [hsource, ← hbehind, List.append_assoc]
    · rw [Position.after_append, ← hposition]

/-- What a call gives out here is given out by one of the calls for the symbols of the source, and
the later calls go on behind it. -/
theorem exists_call (h : Arrives o source s) :
    ∃ n gaps, ((ofText o source).call n).symbol = s.next.1.symbol ∧
      ((ofText o source).call n).reports = gaps ++ s.next.1.reports ∧ OfGapsOnly gaps ∧
      ∀ i, (ofText o source).call (n + 1 + i) = s.next.2.call i := by
  induction h with
  | start =>
    refine ⟨0, [], by rw [call], by rw [call, List.nil_append], .nil, fun i => ?_⟩
    rw [Nat.zero_add, Nat.add_comm, call]
  | @behind p c rest h ih =>
    obtain ⟨n, gaps, hsymbol, hreports, hgaps, hlater⟩ := ih
    have hnext := next_cons o p c rest
    cases hk : (first o p c rest).asSymbol? with
    | none =>
      rw [hk] at hnext
      rw [hnext] at hsymbol hreports hlater
      dsimp only at hsymbol hreports hlater
      have hown := ofGapsOnly_of_asSymbol?_eq_none hk
      exact ⟨n, gaps ++ (first o p c rest).reports, hsymbol, by rw [hreports, List.append_assoc],
        hgaps.append hown, hlater⟩
    | some x =>
      rw [hk] at hnext
      rw [hnext] at hlater
      dsimp only at hlater
      have hcall := hlater 0
      rw [Nat.add_zero, call] at hcall
      refine ⟨n + 1, [], by rw [hcall], by rw [hcall, List.nil_append], .nil, fun i => ?_⟩
      rw [Nat.add_assoc (n + 1), hlater (1 + i), Nat.add_comm 1 i, call]

end Arrives

/-- A symbol that is no word is read where calls arrive at it. -/
theorem Arrives.reads {r : Reading} {behind text : List Char}
    (h : Arrives o source ⟨o, p, c :: rest⟩) (hblank : isBlank c = false)
    (hword : c.isAlpha = false) (hread : read? o p c rest = some r)
    (htext : c :: rest = text ++ behind) (hlength : r.length = text.length) :
    Reads o source ⟨o, p, c :: rest⟩ ⟨r.token, String.ofList text, p⟩ r.reports := by
  have hfirst := first_of_read? hblank hread
  have hown : (first o p c rest).text = text := by
    rw [hfirst, text_ofReading, htext, hlength, List.take_left]
  have hextent : (first o p c rest).extent = text := by
    rw [extent, hown, hfirst, dropped_ofReading_of_isAlpha_eq_false hword, List.append_nil]
  have hsymbol : (first o p c rest).asSymbol? = some ⟨r.token, String.ofList text, p⟩ := by
    rw [asSymbol?, hown, hfirst]
    rfl
  have hnext := next_cons o p c rest
  rw [hsymbol, skip_of_extent (htext.trans (by rw [hextent])), hextent, hfirst,
    reports_ofReading_of_isAlpha_eq_false hword] at hnext
  obtain ⟨n, gaps, hfound, hreports, hgaps, -⟩ := h.exists_call
  rw [hnext] at hfound hreports
  refine ⟨rfl, h.exists_front, ⟨behind, ?_, ?_⟩, n, gaps, Scanned.ext hfound hreports, hgaps⟩
  · rw [String.toList_ofList, htext]
  · rw [hnext, String.toList_ofList]

end Scanner

end Modula
