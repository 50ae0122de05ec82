import Modula.Proofs.Bytes
import Modula.Proofs.Pieces

/-!
# Where symbols stand

The positions of symbols and lexical faults are those of their bytes, and the texts of symbols are
what stands there.
-/

namespace Modula

variable {o : LexicalOptions} {source : String}

theorem Symbol.Stands.exact_position {s : Symbol} (h : s.Stands source) :
    s.position.Exact source := by
  obtain ⟨front, back, hsource, hposition⟩ := h.place
  rw [hposition]
  exact Position.exact_after ⟨s.text.toList ++ back, by rw [hsource, List.append_assoc]⟩

/-- A symbol is found behind some characters at the start of the source. -/
theorem exists_prefix_of_mem_symbols {s : Symbol} (h : s ∈ (tokenize o source).symbols) :
    ∃ front, front <+: source.toList ∧ s.position = Position.start.after front := by
  rw [symbols_tokenize] at h
  rcases List.mem_append.1 h with h | h
  · obtain ⟨front, back, hsource, hposition⟩ := (stands_of_mem_symbolsOf h).place
    exact ⟨front, ⟨s.text.toList ++ back, by rw [hsource, List.append_assoc]⟩, hposition⟩
  · rw [List.mem_singleton.1 h]
    exact ⟨_, List.prefix_refl _, rfl⟩

theorem exact_position {s : Symbol} (h : s ∈ (tokenize o source).symbols) :
    s.position.Exact source := by
  obtain ⟨front, hfront, hposition⟩ := exists_prefix_of_mem_symbols h
  rw [hposition]
  exact Position.exact_after hfront

/-- A lexical fault is found behind some characters at the start of the source. -/
theorem exists_prefix_of_mem_reports {d : Diagnostic} (h : d ∈ (tokenize o source).reports) :
    ∃ front, front <+: source.toList ∧ d.IsAt (Position.start.after front) := by
  rw [reports_tokenize] at h
  obtain ⟨k, hk, hd⟩ := List.mem_flatMap.1 h
  obtain ⟨front, c, rest, hsource, rfl⟩ := exists_first_of_mem_piecesOf hk
  obtain ⟨u, hu, hat⟩ := (Chunk.within_first o _ c rest).place d hd
  rw [← Position.after_append] at hat
  refine ⟨front ++ u, ?_, hat⟩
  rw [hsource]
  exact (List.prefix_append_right_inj front).2 hu

/-- A lexical fault is found where a character of the source starts or ends. -/
theorem exists_exact_of_mem_reports {d : Diagnostic} (h : d ∈ (tokenize o source).reports) :
    ∃ p : Position, p.Exact source ∧ d.IsAt p := by
  obtain ⟨front, hfront, hat⟩ := exists_prefix_of_mem_reports h
  exact ⟨_, Position.exact_after hfront, hat⟩

/-- Positions and texts are exact. Every symbol has the line and the column of its first byte, and
every symbol but the end of the source has some text that starts there, on a line that the source
has. The symbols stand one behind the other, and the faults between characters. -/
theorem tokenize_exact (o : LexicalOptions) (source : String) :
    (∀ s ∈ (tokenize o source).symbols, s.position.Exact source) ∧
      (∀ s ∈ (tokenize o source).symbols, s.token ≠ .endOfFile →
        (tokenize o source).text s ≠ "" ∧
        (∃ front back, source = front ++ (tokenize o source).text s ++ back ∧
          s.position.offset = front.utf8ByteSize) ∧
        (Text.line? source s.line).isSome = true ∧ s.line ≤ Text.lineCount source) ∧
      ((tokenize o source).symbols.filter (·.token ≠ .endOfFile)).Pairwise
        (fun s t => s.position.Before t.position) ∧
      ∀ d ∈ (tokenize o source).reports, ∃ p : Position, p.Exact source ∧ d.IsAt p := by
  refine ⟨fun s => exact_position, fun s hs ht => ?_, ?_, fun d => exists_exact_of_mem_reports⟩
  · have hmem := mem_symbolsOf_of_ne hs ht
    obtain ⟨-, hne, -, front, back, hsource, hposition⟩ := stands_of_mem_symbolsOf hmem
    rw [text_tokenize hmem]
    refine ⟨hne, ⟨String.ofList front, String.ofList back, ?_, ?_⟩, ?_⟩
    · rw [← String.toList_inj]
      simpa using hsource
    · rw [hposition, Position.offset_after]
      exact Nat.zero_add _
    · rw [Symbol.line, hposition]
      have hsplit : source.toList = front ++ (s.text.toList ++ back) := by
        rw [hsource, List.append_assoc]
      exact Position.isSome_line?_after hsplit (by simp [hne])
  · rw [filter_symbols_tokenize]
    refine List.Pairwise.imp_of_mem ?_ (pairwise_symbolsOf o source)
    rintro s t hs - ⟨gap, hgap⟩
    rw [hgap]
    refine Position.before_after _ ?_
    have hne := (stands_of_mem_symbolsOf hs).text_ne
    simp [hne]

end Modula
