import Modula.Diagnostic.Terminal
import Modula.Proofs.Carets
import Modula.Proofs.Messages

/-!
# Paint is decoration

A sequence that switches a paint on or off starts with an escape character and a bracket and ends
at the next `m`. Nothing else that is printed has an escape character, unless it stands in the
origin, in the source that is shown, or in a text of a diagnostic. So to take the sequences out of
painted output is to print it without paint.
-/

namespace Modula

/-- The character that opens a sequence. -/
def escape : Char := '\x1b'

theorem isControl_escape : Quoted.isControl escape = true := by decide

namespace Text

/-- What follows a sequence, given what follows its escape character. -/
def behindSequence : List Char → Option (List Char)
  | '[' :: cs => if 'm' ∈ cs then some (cs.dropWhile (· ≠ 'm')).tail else none
  | _ => none

theorem length_behindSequence {cs rest : List Char} (h : behindSequence cs = some rest) :
    rest.length < cs.length := by
  unfold behindSequence at h
  split at h
  · next cs =>
    split at h
    · cases h
      have hle := (List.dropWhile_sublist (l := cs) (· ≠ 'm')).length_le
      rw [List.length_tail, List.length_cons]
      omega
    · cases h
  · cases h

/-- A text without its sequences. -/
def unpainted : List Char → List Char
  | [] => []
  | c :: cs =>
    if c = escape then
      match _h : behindSequence cs with
      | some rest => unpainted rest
      | none => c :: unpainted cs
    else c :: unpainted cs
termination_by cs => cs.length
decreasing_by
  · have := length_behindSequence _h
    rw [List.length_cons]
    omega
  · exact Nat.lt_succ_self _
  · exact Nat.lt_succ_self _

/-- What has no escape character stays as it is. -/
theorem unpainted_append {front : List Char} (h : escape ∉ front) (cs : List Char) :
    unpainted (front ++ cs) = front ++ unpainted cs := by
  induction front with
  | nil => rfl
  | cons c front ih =>
    rw [List.mem_cons, not_or] at h
    rw [List.cons_append, unpainted, if_neg (Ne.symm h.1), ih h.2, List.cons_append]

/-- A sequence is taken out. -/
theorem unpainted_sequence {between : List Char} (h : 'm' ∉ between) (cs : List Char) :
    unpainted (escape :: '[' :: (between ++ 'm' :: cs)) = unpainted cs := by
  have hdrop : (between ++ 'm' :: cs).dropWhile (· ≠ 'm') = 'm' :: cs := by
    rw [List.dropWhile_append_of_pos fun c hc => by
      simpa using fun hm : c = 'm' => h (hm ▸ hc)]
    rfl
  have hbehind : behindSequence ('[' :: (between ++ 'm' :: cs)) = some cs := by
    rw [behindSequence, if_pos (by simp), hdrop, List.tail_cons]
  rw [unpainted, if_pos rfl]
  -- The match keeps its equation for the termination proof, so it is split and not rewritten.
  split
  · next rest hrest =>
    rw [hbehind] at hrest
    cases hrest
    rfl
  · next hrest =>
    rw [hbehind] at hrest
    cases hrest

theorem lacks_of_line? {text line : String} {number : Nat} {c : Char}
    (hline : line? text number = some line) (h : Lacks text c) : Lacks line c := by
  unfold line? at hline
  split at hline
  · cases hline
  · obtain ⟨terminated, hget, rfl⟩ := Option.map_eq_some_iff.1 hline
    intro hm
    rw [String.toList_ofList] at hm
    refine h ?_
    rw [← flatten_cutLines text.toList]
    exact List.mem_flatten_of_mem (List.mem_of_getElem? hget)
      ((prefix_dropTerminator terminated).subset hm)

end Text

/-! ## Painted texts -/

/-- The text has sequences for decoration and is otherwise the plain one. -/
structure Decorates (painted plain : String) : Prop where
  lacks : Text.Lacks plain escape
  unpainted_append : ∀ cs, Text.unpainted (painted.toList ++ cs) =
    plain.toList ++ Text.unpainted cs

namespace Decorates

variable {a b plainA plainB : String}

theorem of_lacks (h : Text.Lacks a escape) : Decorates a a :=
  ⟨h, Text.unpainted_append h⟩

theorem of_isVisible (h : Text.isVisible a = true) : Decorates a a :=
  of_lacks (Text.lacks_of_isVisible isControl_escape h)

theorem append (ha : Decorates a plainA) (hb : Decorates b plainB) :
    Decorates (a ++ b) (plainA ++ plainB) where
  lacks := Text.lacks_append.2 ⟨ha.lacks, hb.lacks⟩
  unpainted_append cs := by
    rw [String.toList_append, String.toList_append, List.append_assoc, ha.unpainted_append,
      hb.unpainted_append, List.append_assoc]

theorem join {α : Type} {painted plain : α → String} {xs : List α}
    (h : ∀ x ∈ xs, Decorates (painted x) (plain x)) :
    Decorates (String.join (xs.map painted)) (String.join (xs.map plain)) := by
  induction xs with
  | nil => exact of_isVisible rfl
  | cons x xs ih =>
    obtain ⟨hx, hxs⟩ := List.forall_mem_cons.1 h
    rw [List.map_cons, List.map_cons, String.join_cons, String.join_cons]
    exact hx.append (ih hxs)

/-- Nothing is left of the sequences of a painted text. -/
theorem unpainted_eq (h : Decorates a plainA) : Text.unpainted a.toList = plainA.toList := by
  have hnil := h.unpainted_append []
  rwa [List.append_nil, Text.unpainted, List.append_nil] at hnil

end Decorates

/-- Every paint is switched on by a sequence. -/
theorem Paint.exists_sequence_eq (p : Paint) :
    ∃ between, p.sequence.toList = escape :: '[' :: (between ++ ['m']) ∧ 'm' ∉ between := by
  cases p
  · exact ⟨['1', ';', '3', '5'], by decide, by decide⟩
  · exact ⟨['1', ';', '3', '1'], by decide, by decide⟩
  · exact ⟨['1', ';', '3', '3'], by decide, by decide⟩
  · exact ⟨['1'], by decide, by decide⟩
  · exact ⟨['1', ';', '3', '2'], by decide, by decide⟩

theorem Paint.reset_eq : Paint.reset.toList = escape :: '[' :: (['0'] ++ ['m']) := by decide

namespace Terminal

/-- The texts that are printed with the diagnostics do not hold the character. -/
structure Lacks (t : Terminal) (c : Char) : Prop where
  origin : ∀ text, t.origin = some text → Text.Lacks text c
  echo : ∀ text, t.echo = some text → Text.Lacks text c

/-- The terminal with or without paint. -/
def withPaint (t : Terminal) (painted : Bool) : Terminal := { t with painted }

@[simp]
theorem origin_withPaint (t : Terminal) (painted : Bool) :
    (t.withPaint painted).origin = t.origin := rfl

@[simp]
theorem echo_withPaint (t : Terminal) (painted : Bool) : (t.withPaint painted).echo = t.echo := rfl

theorem decorates_paint (t : Terminal) {text : String} (h : Text.Lacks text escape) (p : Paint) :
    Decorates ((t.withPaint true).paint p text) ((t.withPaint false).paint p text) where
  lacks := h
  unpainted_append cs := by
    obtain ⟨between, hsequence, hbetween⟩ := p.exists_sequence_eq
    have hreset : 'm' ∉ ['0'] := by decide
    change Text.unpainted ((p.sequence ++ text ++ Paint.reset).toList ++ cs) = _
    rw [String.toList_append, String.toList_append, hsequence, Paint.reset_eq]
    simp only [List.append_assoc, List.cons_append, List.nil_append]
    rw [Text.unpainted_sequence hbetween, Text.unpainted_append h]
    exact congrArg (text.toList ++ ·) (Text.unpainted_sequence hreset cs)

theorem lacks_counted (n : Nat) {noun : String} (h : Text.isVisible noun = true) :
    Text.Lacks (counted n noun) escape := by
  have hnoun := Text.lacks_of_isVisible isControl_escape h
  have hs : Text.Lacks "s" escape := by decide
  unfold counted
  split
  · simp only [Text.lacks_append, Text.lacks_toString]
    exact ⟨by decide, hnoun⟩
  · simp only [Text.lacks_append, Text.lacks_toString]
    exact ⟨⟨⟨Text.lacks_ofNat isControl_escape n, by decide⟩, hnoun⟩, hs⟩

theorem lacks_indent (line : String) (column : Nat) : Text.Lacks (indent line column) escape := by
  intro hm
  rw [indent, String.toList_ofList, List.mem_map] at hm
  obtain ⟨c, -, hc⟩ := hm
  split at hc <;> exact absurd hc (by decide)

variable {t : Terminal} {d : Diagnostic} {ds : List Diagnostic}

theorem decorates_originText (h : t.Lacks escape) :
    Decorates (t.withPaint true).originText (t.withPaint false).originText := by
  cases horigin : t.origin with
  | none =>
    simp only [originText, origin_withPaint, horigin]
    exact .of_isVisible rfl
  | some origin =>
    simp only [originText, origin_withPaint, horigin]
    exact (t.decorates_paint (h.origin origin horigin) _).append (.of_isVisible rfl)

theorem decorates_echoLine (h : t.Lacks escape) (line column : Nat) :
    Decorates ((t.withPaint true).echoLine line column)
      ((t.withPaint false).echoLine line column) := by
  cases hline : t.echo.bind (Text.line? · line) with
  | none =>
    simp only [echoLine, echo_withPaint, hline]
    exact .of_isVisible rfl
  | some text =>
    obtain ⟨source, hsource, htext⟩ := Option.bind_eq_some_iff.1 hline
    have hlacks : Text.Lacks text escape := Text.lacks_of_line? htext (h.echo source hsource)
    simp only [echoLine, echo_withPaint, hline]
    refine ((Decorates.of_lacks ?_).append (t.decorates_paint (by decide) _)).append
      (.of_lacks (by decide))
    simp only [Text.lacks_append, Text.lacks_toString]
    exact ⟨⟨⟨by decide, hlacks⟩, by decide⟩, lacks_indent text column⟩

theorem decorates_render (h : t.Lacks escape) (hd : d.Lacks escape) :
    Decorates ((t.withPaint true).render d) ((t.withPaint false).render d) := by
  have hplace : Text.Lacks s!"{d.line}:{d.column}: " escape := by
    simp only [Text.lacks_append, Text.lacks_toString]
    exact ⟨⟨⟨Text.lacks_ofNat isControl_escape _, by decide⟩,
      Text.lacks_ofNat isControl_escape _⟩, by decide⟩
  have hcode : Text.Lacks s!"[{d.code.name}]" escape := by
    simp only [Text.lacks_append, Text.lacks_toString]
    exact ⟨⟨by decide, d.code.lacks_name isControl_escape⟩, by decide⟩
  have hmessage : Text.Lacks s!": {d.message}\n" escape := by
    simp only [Text.lacks_append, Text.lacks_toString]
    exact ⟨⟨by decide, hd.message isControl_escape⟩, by decide⟩
  unfold render
  exact (decorates_originText h).append (.of_lacks hplace)
    |>.append (t.decorates_paint (d.severity.lacks_name isControl_escape) _)
    |>.append (t.decorates_paint hcode _)
    |>.append (.of_lacks hmessage)
    |>.append (decorates_echoLine h _ _)

theorem decorates_renderAll (h : t.Lacks escape) (hds : ∀ d ∈ ds, d.Lacks escape) :
    Decorates ((t.withPaint true).renderAll ds) ((t.withPaint false).renderAll ds) :=
  .join fun d hd => decorates_render h (hds d hd)

theorem decorates_summary (t : Terminal) (errors warnings : Nat) :
    Decorates ((t.withPaint true).summary errors warnings)
      ((t.withPaint false).summary errors warnings) := by
  have hcounted : Text.Lacks (counted warnings "warning") escape :=
    lacks_counted warnings (by decide)
  unfold summary
  split
  · exact .of_isVisible rfl
  · exact (t.decorates_paint (by decide) _).append (.of_isVisible (by decide))
      |>.append (.of_lacks hcounted)
      |>.append (.of_lacks (by decide))
  · have habort : Text.Lacks (if errors = 1 then "aborting due to previous error"
        else s!"aborting due to {errors} previous errors") escape := by
      split
      · decide
      · simp only [Text.lacks_append, Text.lacks_toString]
        exact ⟨⟨by decide, Text.lacks_ofNat isControl_escape _⟩, by decide⟩
    have hmore : Text.Lacks (if 0 < warnings then "; " ++ counted warnings "warning" ++ " emitted"
        else "") escape := by
      split
      · simp only [Text.lacks_append]
        exact ⟨⟨by decide, hcounted⟩, by decide⟩
      · decide
    refine (t.decorates_paint (by decide) _).append (.of_lacks ?_)
    simp only [Text.lacks_append, Text.lacks_toString]
    exact ⟨⟨⟨by decide, habort⟩, hmore⟩, by decide⟩

/-- Painted output without its sequences is what is printed without paint, which has no escape
character. -/
theorem unpainted_output (h : t.Lacks escape) (hds : ∀ d ∈ ds, d.Lacks escape)
    (errors warnings : Nat) :
    let output := fun painted : Bool =>
      (t.withPaint painted).renderAll ds ++ (t.withPaint painted).summary errors warnings
    Text.unpainted (output true).toList = (output false).toList ∧
      Text.Lacks (output false) escape := by
  have houtput := (decorates_renderAll h hds).append (t.decorates_summary errors warnings)
  exact ⟨houtput.unpainted_eq, houtput.lacks⟩

/-- A source whose brackets and letters look like a sequence, with an escape character at fault. -/
theorem unpainted_output_of_escape_at_fault :
    let t : Terminal := { origin := some "[1m", echo := some "\ta[0m] := 1;\n" }
    let ds := [{ Diagnostic.new .illegalCharacter 1 2 with char := some escape },
      { Diagnostic.new .closingMismatch 1 4 with
        lexeme := some "[0m", expected := some (.name "m[31m") }]
    let output := fun painted : Bool =>
      (t.withPaint painted).renderAll ds ++ (t.withPaint painted).summary 2 1
    t.Lacks escape ∧ (∀ d ∈ ds, d.Lacks escape) ∧
      Text.unpainted (output true).toList = (output false).toList ∧
      Text.Lacks (output false) escape := by
  intro t ds output
  have ht : t.Lacks escape := ⟨by rintro _ ⟨⟩; decide, by rintro _ ⟨⟩; decide⟩
  have hds : ∀ d ∈ ds, d.Lacks escape := by
    refine List.forall_mem_cons.2 ⟨⟨nofun, nofun⟩, List.forall_mem_singleton.2 ⟨?_, ?_⟩⟩
    · rintro _ ⟨⟩
      decide
    · rintro _ ⟨⟩
      decide
  exact ⟨ht, hds, @unpainted_output t ds ht hds 2 1⟩

end Terminal

end Modula
