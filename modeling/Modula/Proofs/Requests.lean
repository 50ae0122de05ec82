import Modula.Proofs.LexicalFacts
import Modula.Proofs.StringTables

/-!
# Requests to a window

A window is asked for things in any order: it is moved, its faults are taken, strings are added to
its table and looked up there. It shows the symbols of the source one after the other all the same,
and every fault of the source is handed out once, in order. What is done to the table is seen in
nothing but the places of strings that arrive later.

The argument compares the window with one that is moved as often and asked for nothing else
(`Follows`): one request keeps the two together, and so does any number of them.
-/

namespace Modula

/-- What can be asked of a window. -/
inductive Request where
  /-- To move by one symbol. -/
  | next
  /-- The symbol that was read last. -/
  | current
  /-- The symbol that comes next. -/
  | lookahead
  /-- The faults found since they were last taken. -/
  | takeReports
  /-- To add a string to the table. -/
  | intern (text : String)
  /-- The handle of a string, if it is in the table. -/
  | get (text : String)
  /-- The string of a handle. -/
  | lexeme (name : Handle)
deriving DecidableEq, Repr

/-- What is answered to a request. -/
inductive Answer where
  /-- The token that comes next, after a move. -/
  | token (t : Token)
  /-- A symbol, with the handle of its lexeme. -/
  | symbol (s : Symbol) (name : Option Handle)
  | reports (ds : List Diagnostic)
  /-- The handle of a string, where the table holds it. -/
  | handle (text : String) (name : Option Handle)
  | lexeme (text : String)
deriving DecidableEq

namespace Answer

/-- What an answer says of the source, whatever the table holds. -/
def ofSource? : Answer → Option (Token ⊕ Symbol ⊕ List Diagnostic)
  | token t => some (.inl t)
  | symbol s _ => some (.inr (.inl s))
  | reports ds => some (.inr (.inr ds))
  | handle .. | lexeme _ => none

/-- The faults that an answer hands out. -/
def batch : Answer → List Diagnostic
  | reports ds => ds
  | _ => []

/-- The handle that an answer gives out, with the string it is given out for. -/
def handle? : Answer → Option (Handle × String)
  | symbol s name => name.map (·, s.text)
  | handle text name => name.map (·, text)
  | _ => none

end Answer

namespace Window

/-- What is answered to a request, and the window afterwards. -/
def serve (w : Window) : Request → Answer × Window
  | .next => (.token w.next.lookahead.token, w.next)
  | .current => (.symbol w.current (w.table.handleOf? w.current), w)
  | .lookahead => (.symbol w.lookahead (w.table.handleOf? w.lookahead), w)
  | .takeReports => (.reports w.takeReports.1, w.takeReports.2)
  | .intern text => (.handle text (w.intern text).1, (w.intern text).2)
  | .get text => (.handle text (w.table.get? text), w)
  | .lexeme name => (.lexeme (w.table.lookup name), w)

/-- The answers to requests one after the other, and the window afterwards. -/
def serveAll (w : Window) : List Request → List Answer × Window
  | [] => ([], w)
  | r :: later =>
    let (answer, behind) := w.serve r
    let (answers, last) := behind.serveAll later
    (answer :: answers, last)

/-- The answers to requests. -/
def answers (w : Window) (requests : List Request) : List Answer := (w.serveAll requests).1

/-- The window after requests. -/
def after (w : Window) (requests : List Request) : Window := (w.serveAll requests).2

@[simp]
theorem answers_nil (w : Window) : w.answers [] = [] := rfl

@[simp]
theorem after_nil (w : Window) : w.after [] = w := rfl

@[simp]
theorem answers_cons (w : Window) (r : Request) (later : List Request) :
    w.answers (r :: later) = (w.serve r).1 :: (w.serve r).2.answers later := rfl

@[simp]
theorem after_cons (w : Window) (r : Request) (later : List Request) :
    w.after (r :: later) = (w.serve r).2.after later := rfl

theorem after_append (w : Window) (requests later : List Request) :
    w.after (requests ++ later) = (w.after requests).after later := by
  induction requests generalizing w with
  | nil => rfl
  | cons r requests ih => rw [List.cons_append, after_cons, ih, after_cons]

/-! ## Windows that are only moved -/

/-- At the end of the source a move shows nothing new. -/
theorem Stands.next_of_ahead_eq_nil {w : Window} {seen : List Scanned} (h : w.Stands seen []) :
    w.next.Stands seen [] := by
  have hnext : w.next = { w with current := w.lookahead } := by rw [Window.next, h.ahead]
  rw [hnext]
  exact ⟨h.lookahead, h.ahead, h.table, h.pending⟩

theorem current_next (w : Window) : w.next.current = w.lookahead := by
  unfold next
  split <;> rfl

theorem moved_succ (o : LexicalOptions) (text : String) (k : Nat) :
    moved o text (k + 1) = (moved o text k).next := Function.iterate_succ_apply' ..

/-- After `k` moves the window has shown one symbol more than it was moved, as far as there are
so many. -/
theorem stands_moved (o : LexicalOptions) (text : String) (k : Nat) :
    (moved o text k).Stands ((Scanned.stream o text).take (k + 1))
      ((Scanned.stream o text).drop (k + 1)) := by
  induction k with
  | zero =>
    obtain ⟨-, init, reports, hstream, -, -⟩ := Scanned.endsIn_stream o text
    cases hs : Scanned.stream o text with
    | nil => rw [hstream] at hs; exact absurd hs (List.concat_ne_nil _ _)
    | cons s ahead => exact stands_ofText hs
  | succ k ih =>
    rw [moved_succ]
    by_cases hk : k + 1 < (Scanned.stream o text).length
    · rw [List.drop_eq_getElem_cons hk] at ih
      rw [List.take_succ_eq_append_getElem hk]
      exact ih.next
    · have hle := Nat.le_of_not_lt hk
      rw [List.take_of_length_le hle, List.drop_of_length_le hle] at ih
      rw [List.take_of_length_le (Nat.le_succ_of_le hle),
        List.drop_of_length_le (Nat.le_succ_of_le hle)]
      exact ih.next_of_ahead_eq_nil

/-! ## What requests do to a window -/

theorem inverse_note {table : Interner} (h : table.Inverse) (s : Symbol) :
    (note table s).Inverse := by
  unfold note
  cases s.lexeme? with
  | none => exact h
  | some text => exact h.intern text

theorem inverse_serve {w : Window} (h : w.table.Inverse) (r : Request) :
    (w.serve r).2.table.Inverse := by
  cases r with
  | next =>
    dsimp only [serve]
    unfold next
    split
    · exact h
    · exact inverse_note h _
  | intern text => exact h.intern text
  | current | lookahead | takeReports | get | lexeme => exact h

/-- Requests keep the map and the vector of the table inverse to each other. -/
theorem inverse_after {w : Window} (h : w.table.Inverse) (requests : List Request) :
    (w.after requests).table.Inverse := by
  induction requests generalizing w with
  | nil => exact h
  | cons r requests ih => exact ih (inverse_serve h r)

theorem inverse_ofText (o : LexicalOptions) (text : String) : (ofText o text).table.Inverse :=
  inverse_note Interner.inverse_new _

/-- The window `w` shows what `v` shows, and `taken` holds those of the faults found by `v` that were
taken from `w`. The table of `w` may hold more. -/
structure Follows (w v : Window) (taken : List Diagnostic) : Prop where
  current : w.current = v.current
  lookahead : w.lookahead = v.lookahead
  ahead : w.ahead = v.ahead
  reports : taken ++ w.pending = v.pending
  strings : ∀ s ∈ v.table.strings, s ∈ w.table.strings
  inverse : w.table.Inverse
  inverse_moved : v.table.Inverse

namespace Follows

variable {w w' v : Window} {taken : List Diagnostic}

theorem next (h : w.Follows v taken) : w.next.Follows v.next taken := by
  unfold Window.next
  rw [h.ahead]
  split
  · exact ⟨h.lookahead, h.lookahead, rfl, h.reports, h.strings, h.inverse, h.inverse_moved⟩
  · next s ahead _ =>
    refine ⟨h.lookahead, rfl, rfl, ?_, ?_, inverse_note h.inverse _,
      inverse_note h.inverse_moved _⟩
    · rw [← h.reports, List.append_assoc]
    · dsimp only [note]
      cases s.symbol.lexeme? with
      | none => exact h.strings
      | some text =>
        intro t ht
        rw [h.inverse_moved.mem_strings_intern] at ht
        rw [h.inverse.mem_strings_intern]
        exact ht.imp_left (h.strings t)

theorem intern (h : w.Follows v taken) (text : String) : (w.intern text).2.Follows v taken :=
  ⟨h.current, h.lookahead, h.ahead, h.reports,
    fun t ht => (Interner.extends_intern w.table text).mem (h.strings t ht),
    h.inverse.intern text, h.inverse_moved⟩

theorem takeReports (h : w.Follows v taken) :
    w.takeReports.2.Follows v (taken ++ w.takeReports.1) := by
  refine ⟨h.current, h.lookahead, h.ahead, ?_, h.strings, h.inverse, h.inverse_moved⟩
  exact (List.append_nil _).trans h.reports

/-- Windows that follow the same one have found the same faults since these were taken. -/
theorem pending_eq (h : w.Follows v taken) (h' : w'.Follows v taken) : w.pending = w'.pending :=
  List.append_cancel_left (h.reports.trans h'.reports.symm)

/-- Behind requests the window shows what one shows that was moved as often. -/
theorem after (h : w.Follows v taken) (requests : List Request) :
    (w.after requests).Follows (Window.next^[requests.count .next] v)
      (taken ++ (w.answers requests).flatMap Answer.batch) := by
  induction requests generalizing w v taken with
  | nil => simpa using h
  | cons r requests ih =>
    rw [after_cons, answers_cons, List.flatMap_cons, ← List.append_assoc]
    cases r with
    | next =>
      rw [List.count_cons_self, Function.iterate_succ_apply]
      exact ih (by simpa [serve, Answer.batch] using h.next)
    | intern text => exact ih (by simpa [serve, Answer.batch] using h.intern text)
    | takeReports => exact ih h.takeReports
    | current | lookahead | get | lexeme => exact ih (by simpa [serve, Answer.batch] using h)

end Follows

theorem follows_refl {w : Window} (h : w.table.Inverse) : w.Follows w [] :=
  ⟨rfl, rfl, rfl, rfl, fun _ => id, h, h⟩

end Window

/-- The request adds a string to the table that need not be one of the source. -/
def Request.isForeign : Request → Bool
  | intern _ => true
  | _ => false

namespace Window

/-- Adding strings to the table changes no answer but those about the table. -/
theorem Follows.answers_filter {w w' v : Window} {taken : List Diagnostic} (h : w.Follows v taken)
    (h' : w'.Follows v taken) (requests : List Request) :
    (w.answers requests).filterMap Answer.ofSource? =
      (w'.answers (requests.filter (!·.isForeign))).filterMap Answer.ofSource? := by
  induction requests generalizing w w' v taken with
  | nil => rfl
  | cons r requests ih =>
    cases r with
    | intern text => exact ih (h.intern text) h'
    | next =>
      have hsame := h.next.lookahead.trans h'.next.lookahead.symm
      refine congrArg₂ List.cons ?_ (ih h.next h'.next)
      rw [hsame]
    | takeReports =>
      have hsame : w.takeReports.1 = w'.takeReports.1 := h.pending_eq h'
      refine congrArg₂ List.cons ?_ (ih h.takeReports (hsame ▸ h'.takeReports))
      rw [hsame]
    | current =>
      refine congrArg₂ List.cons ?_ (ih h h')
      rw [h.current, h'.current]
    | lookahead =>
      refine congrArg₂ List.cons ?_ (ih h h')
      rw [h.lookahead, h'.lookahead]
    | get | lexeme => exact ih h h'

/-! ## Handles -/

theorem extends_serve (w : Window) (r : Request) : w.table.Extends (w.serve r).2.table := by
  cases r with
  | next =>
    dsimp only [serve]
    unfold next
    split
    · exact .refl _
    · next s _ _ =>
      dsimp only [note]
      cases s.symbol.lexeme? with
      | none => exact .refl _
      | some text => exact Interner.extends_intern w.table text
  | intern text => exact Interner.extends_intern w.table text
  | current | lookahead | takeReports | get | lexeme => exact .refl _

theorem extends_after (w : Window) (requests : List Request) :
    w.table.Extends (w.after requests).table := by
  induction requests generalizing w with
  | nil => exact .refl _
  | cons r requests ih => exact (w.extends_serve r).trans (ih _)

/-- A symbol's handle is that of its text. -/
theorem get?_of_handleOf? {table : Interner} {s : Symbol} {n : Handle}
    (h : table.handleOf? s = some n) : table.get? s.text = some n := by
  obtain ⟨text, htext, hget⟩ := Option.bind_eq_some_iff.1 h
  unfold Symbol.lexeme? at htext
  split at htext
  · cases htext; exact hget
  · cases htext

/-- A string is found under the handle that was given out for it. -/
theorem get?_of_serve {w : Window} {r : Request} {x : Handle × String}
    (h : (w.serve r).1.handle? = some x) : (w.serve r).2.table.get? x.2 = some x.1 := by
  cases r with
  | current | lookahead =>
    obtain ⟨n, hn, rfl⟩ := Option.map_eq_some_iff.1 h
    exact get?_of_handleOf? hn
  | intern text =>
    cases h
    exact Interner.get?_intern w.table text
  | get text =>
    obtain ⟨n, hn, rfl⟩ := Option.map_eq_some_iff.1 h
    exact hn
  | next | takeReports | lexeme => cases h

theorem get?_of_mem_answers {w : Window} (h : w.table.Inverse) {requests : List Request}
    {a : Answer} (ha : a ∈ w.answers requests) {x : Handle × String} (hx : a.handle? = some x) :
    (w.after requests).table.get? x.2 = some x.1 := by
  induction requests generalizing w with
  | nil => cases ha
  | cons r requests ih =>
    rcases List.mem_cons.1 ha with rfl | ha
    · have hserved := inverse_serve h r
      exact (extends_after _ requests).get? hserved (inverse_after hserved _) (get?_of_serve hx)
    · exact ih (inverse_serve h r) ha

end Window

/-! ## Requests to the window in front of a source -/

/-- The symbol that comes next after so many moves. The end of the source comes for ever behind the
other symbols. -/
def Tokenized.symbolAt (t : Tokenized) (moves : Nat) : Symbol :=
  t.symbols.getD moves (t.symbols.getLastD .none)

section

variable (o : LexicalOptions) (text : String)

theorem symbolAt_of_lt {k : Nat} (h : k < (Scanned.stream o text).length) :
    (tokenize o text).symbolAt k = (Scanned.stream o text)[k].symbol := by
  have hk : (tokenize o text).symbols[k]? = some (Scanned.stream o text)[k].symbol := by
    rw [tokenize, List.getElem?_map, List.getElem?_eq_getElem h]
    rfl
  rw [Tokenized.symbolAt, List.getD_eq_getElem?_getD, hk]
  rfl

/-- From the last symbol on, only the end of the source comes. -/
theorem exists_end (o : LexicalOptions) (text : String) :
    ∃ e : Symbol, e.token = .endOfFile ∧ (tokenize o text).symbols.getLast? = some e ∧
      ∀ k, (tokenize o text).symbols.length ≤ k + 1 → (tokenize o text).symbolAt k = e := by
  obtain ⟨htoken, init, reports, hstream, -, -⟩ := Scanned.endsIn_stream o text
  have hsymbols : (tokenize o text).symbols =
      init.map Scanned.symbol ++ [(Scanned.endOf text.toList).symbol] := by
    rw [tokenize, hstream, List.map_append]
    rfl
  refine ⟨_, htoken, by rw [hsymbols, List.getLast?_concat], fun k hk => ?_⟩
  rw [hsymbols, List.length_append, List.length_singleton] at hk
  rw [Tokenized.symbolAt, hsymbols, List.getD_eq_getElem?_getD,
    List.getElem?_append_right (Nat.le_of_succ_le_succ hk), List.getLastD_concat]
  cases k - (init.map Scanned.symbol).length <;> rfl

/-- The window that was moved so often shows the symbol that comes then. -/
theorem Window.lookahead_moved (k : Nat) :
    (Window.moved o text k).lookahead = (tokenize o text).symbolAt k := by
  have h := (Window.stands_moved o text k).lookahead
  by_cases hk : k < (Scanned.stream o text).length
  · rw [List.take_succ_eq_append_getElem hk, List.getLast?_concat] at h
    rw [symbolAt_of_lt o text hk]
    exact (Option.some.inj h).symm
  · obtain ⟨e, -, hlast, hend⟩ := exists_end o text
    have hle := Nat.le_succ_of_le (Nat.le_of_not_lt hk)
    rw [List.take_of_length_le hle, ← List.getLast?_map] at h
    rw [hend k (by rwa [tokenize, List.length_map])]
    exact Option.some.inj (h.symm.trans hlast)

theorem Window.current_moved_succ (k : Nat) :
    (Window.moved o text (k + 1)).current = (tokenize o text).symbolAt k := by
  rw [Window.moved_succ, Window.current_next, Window.lookahead_moved]

/-- The lexeme of a symbol that has come into view is in the table from then on. -/
theorem Window.mem_strings_moved {j k : Nat} (hj : j ≤ k) {lexeme : String}
    (h : ((tokenize o text).symbolAt j).lexeme? = some lexeme) :
    lexeme ∈ (Window.moved o text k).table.strings := by
  rw [← Window.lookahead_moved] at h
  obtain ⟨s, hs, hsymbol⟩ :=
    Option.map_eq_some_iff.1 (Window.stands_moved o text j).lookahead
  have hseen : s ∈ (Scanned.stream o text).take (k + 1) :=
    (List.take_subset_take_left _ (Nat.succ_le_succ hj)) (List.mem_of_getLast? hs)
  rw [(Window.stands_moved o text k).table, tableOf,
    Interner.inverse_new.mem_strings_internAll]
  refine .inr (List.mem_filterMap.2 ⟨s.symbol, List.mem_map_of_mem hseen, ?_⟩)
  rw [hsymbol, h]

/-- The window in front of a source, after requests. -/
def Window.served (requests : List Request) : Window := (Window.ofText o text).after requests

/-- What was answered to requests to the window in front of a source. -/
def Window.answered (requests : List Request) : List Answer :=
  (Window.ofText o text).answers requests

theorem Window.follows_served (requests : List Request) :
    (Window.served o text requests).Follows (Window.moved o text (requests.count .next))
      ((Window.answered o text requests).flatMap Answer.batch) := by
  have h := (Window.follows_refl (Window.inverse_ofText o text)).after requests
  rwa [List.nil_append] at h

/-- What can be relied on after requests to the window in front of a source. -/
structure Window.Faithful (requests : List Request) : Prop where
  /-- Nothing is read before the first move; then it is the symbol that came next before it. -/
  current : (Window.served o text requests).current =
    match requests.count .next with
    | 0 => Symbol.none
    | k + 1 => (tokenize o text).symbolAt k
  /-- After so many moves, so many symbols have been read. -/
  lookahead : (Window.served o text requests).lookahead =
    (tokenize o text).symbolAt (requests.count .next)
  /-- A symbol is shown with a handle exactly if it has a lexeme. -/
  named : ∀ s name, Answer.symbol s name ∈ Window.answered o text requests →
    (name.isSome = true ↔ s.token.hasLexeme = true)
  /-- At the end of the source, the faults taken so far and those taken then are those of the
  source. -/
  reports : (Window.served o text requests).lookahead.token = .endOfFile →
    (Window.answered o text requests).flatMap Answer.batch ++
      (Window.served o text requests).takeReports.1 = (tokenize o text).reports
  /-- A handle stands for the string that it was given out for, whatever is requested later. -/
  handles : ∀ a ∈ Window.answered o text requests, ∀ x, a.handle? = some x → ∀ later,
    ((Window.served o text (requests ++ later)).serve (.lexeme x.1)).1 = .lexeme x.2
  /-- Strings added to the table make no difference to what is answered about the source. -/
  foreign : (Window.answered o text requests).filterMap Answer.ofSource? =
    (Window.answered o text (requests.filter (!·.isForeign))).filterMap Answer.ofSource?

variable {o text}

/-- A symbol in view has a handle exactly if it has a lexeme. -/
theorem Window.isSome_handleOf? {requests : List Request} {s : Symbol}
    (h : s = (Window.served o text requests).current ∨
      s = (Window.served o text requests).lookahead) :
    ((Window.served o text requests).table.handleOf? s).isSome = true ↔
      s.token.hasLexeme = true := by
  have hfollows := Window.follows_served o text requests
  have hview : s = .none ∨ ∃ j ≤ requests.count .next, s = (tokenize o text).symbolAt j := by
    rcases h with rfl | rfl
    · rw [hfollows.current]
      cases requests.count .next with
      | zero => exact .inl rfl
      | succ k => exact .inr ⟨k, Nat.le_succ k, Window.current_moved_succ o text k⟩
    · rw [hfollows.lookahead]
      exact .inr ⟨_, Nat.le_refl _, Window.lookahead_moved o text _⟩
  rcases hview with rfl | ⟨j, hj, rfl⟩
  · exact iff_of_false Bool.false_ne_true Bool.false_ne_true
  · have hmem (lexeme : String) := @Window.mem_strings_moved o text _ _ hj lexeme
    revert hmem
    unfold Interner.handleOf? Symbol.lexeme?
    cases ((tokenize o text).symbolAt j).token.hasLexeme with
    | false => exact fun _ => iff_of_false Bool.false_ne_true Bool.false_ne_true
    | true =>
      exact fun hmem => iff_of_true
        (hfollows.inverse.isSome_get?_iff.2 (hfollows.strings _ (hmem _ rfl))) rfl

/-- An answer is the one to some request. -/
theorem Window.exists_of_mem_answers {w : Window} {requests : List Request} {a : Answer}
    (ha : a ∈ w.answers requests) :
    ∃ earlier r later, requests = earlier ++ r :: later ∧ a = ((w.after earlier).serve r).1 := by
  induction requests generalizing w with
  | nil => cases ha
  | cons r requests ih =>
    rcases List.mem_cons.1 ha with rfl | ha
    · exact ⟨[], r, requests, rfl, rfl⟩
    · obtain ⟨earlier, r', later, rfl, rfl⟩ := ih ha
      exact ⟨r :: earlier, r', later, rfl, rfl⟩

/-- Where the end of the source comes next, all of the stream has been shown. -/
theorem Scanned.take_of_symbolAt_eq_end {k : Nat}
    (h : ((tokenize o text).symbolAt k).token = .endOfFile) :
    (Scanned.stream o text).take (k + 1) = Scanned.stream o text := by
  obtain ⟨-, init, reports, hstream, -, hinit⟩ := Scanned.endsIn_stream o text
  refine List.take_of_length_le (Nat.le_of_not_lt fun hk => ?_)
  rw [symbolAt_of_lt o text (Nat.lt_of_succ_lt hk)] at h
  have hlt : k < init.length := by
    rw [hstream, List.length_append, List.length_singleton] at hk
    exact Nat.lt_of_succ_lt_succ hk
  have hk : (Scanned.stream o text)[k]? = some init[k] := by
    rw [hstream, List.getElem?_append_left hlt, List.getElem?_eq_getElem hlt]
  obtain ⟨_, hk⟩ := List.getElem?_eq_some_iff.1 hk
  rw [hk] at h
  exact (hinit _ (List.getElem_mem hlt)).token_ne h

/-- The window is a faithful view of the symbols, however it is used: it shows them one after the
other and the end of the source for ever behind them, hands out every fault once, and gives out
handles that stand for their strings from then on. Strings that are added to the table from outside
change nothing else. -/
theorem window_faithful (o : LexicalOptions) (text : String) (requests : List Request) :
    Window.Faithful o text requests ∧
    ∃ e : Symbol, e.token = .endOfFile ∧ (tokenize o text).symbols.getLast? = some e ∧
      ∀ k, (tokenize o text).symbols.length ≤ k + 1 → (tokenize o text).symbolAt k = e := by
  have hfollows := Window.follows_served o text requests
  refine ⟨⟨?_, ?_, ?_, ?_, ?_, ?_⟩, exists_end o text⟩
  · rw [hfollows.current]
    cases requests.count .next with
    | zero => rfl
    | succ k => exact Window.current_moved_succ o text k
  · rw [hfollows.lookahead, Window.lookahead_moved]
  · intro s name hmem
    obtain ⟨earlier, r, later, -, hanswer⟩ := Window.exists_of_mem_answers hmem
    cases r with
    | current => cases hanswer; exact Window.isSome_handleOf? (.inl rfl)
    | lookahead => cases hanswer; exact Window.isSome_handleOf? (.inr rfl)
    | next | takeReports | intern | get | lexeme => cases hanswer
  · intro hend
    rw [hfollows.lookahead, Window.lookahead_moved] at hend
    rw [Window.takeReports, hfollows.reports, (Window.stands_moved o text _).pending,
      Scanned.take_of_symbolAt_eq_end hend]
    rfl
  · intro a ha x hx later
    have hinverse := Window.inverse_after hfollows.inverse later
    have hget := (Window.extends_after _ later).get? hfollows.inverse hinverse
      (Window.get?_of_mem_answers (Window.inverse_ofText o text) ha hx)
    rw [Window.served, Window.after_append]
    exact congrArg Answer.lexeme (hinverse.lookup_of_get? hget)
  · have hsame := Window.follows_refl (Window.inverse_ofText o text)
    exact hsame.answers_filter hsame requests

end

end Modula
