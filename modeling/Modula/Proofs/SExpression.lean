import Modula.Interner
import Modula.Proofs.Alike

/-!
# Reading S-expressions

A tree is found back in its S-expression. The expression is read from left to right by a machine
with a stack: a parenthesis and a name open a node, which then takes a text and parts until its
closing parenthesis makes it a part of the node around it. In the name of a kind there is neither a
blank nor a parenthesis, so it is seen where a name ends. An escaped text goes up to the first quote
without a backslash, and is never taken for anything else.

So two trees are printed alike only if they have the same shape, the same kinds and the same texts,
whatever tables the texts are looked up in.
-/

namespace Modula

namespace Kind

theorem mem_all (k : Kind) : k ∈ all := by
  cases k <;> decide

/-- Every kind is found by its name. -/
theorem ofName?_name (k : Kind) : ofName? k.name = some k := by
  have h : ∀ k ∈ all, ofName? k.name = some k := by decide +kernel
  exact h k (mem_all k)

/-- A name goes on up to the next blank or closing parenthesis. -/
theorem not_ends_of_mem_name (k : Kind) : ∀ c ∈ k.name.toList, ¬(c = ' ' ∨ c = ')') := by
  have h : ∀ k ∈ all, (k.name.toList.all fun c => !(c == ' ' || c == ')')) = true := by
    decide +kernel
  intro c hc hend
  have := List.all_eq_true.1 (h k (mem_all k)) c hc
  rcases hend with rfl | rfl <;> cases this

end Kind

/-! ## The machine -/

/-- A node of which the closing parenthesis is still ahead. -/
structure Unfinished where
  kind : Kind
  value : Option String := none
  /-- The parts so far, the last one first. -/
  parts : List (Tree String) := []

namespace Unfinished

/-- The node as it is now. -/
def finish (u : Unfinished) : Tree String := .node u.kind u.value u.parts.reverse

/-- The text of a node stands in front of its parts, and there is only one. -/
def setValue? (u : Unfinished) (text : String) : Option Unfinished :=
  if u.value = none ∧ u.parts = [] then some { u with value := some text } else none

end Unfinished

/-- What has been read before the current symbol of an S-expression. -/
structure Nodes where
  /-- The nodes around this place, the innermost one first. -/
  around : List Unfinished := []
  /-- The trees that are not inside another, the last one first. -/
  trees : List (Tree String) := []

namespace Nodes

/-- One node more is open. -/
def begin (ns : Nodes) (kind : Kind) : Nodes := { ns with around := { kind } :: ns.around }

/-- A complete tree, as a part of the innermost node. -/
def add (ns : Nodes) (t : Tree String) : Nodes :=
  match ns.around with
  | [] => { ns with trees := t :: ns.trees }
  | u :: around => { ns with around := { u with parts := t :: u.parts } :: around }

/-- The innermost node is complete. -/
def close? (ns : Nodes) : Option Nodes :=
  match ns.around with
  | [] => none
  | u :: around => some ({ ns with around }.add u.finish)

/-- A text of the innermost node. -/
def setValue? (ns : Nodes) (text : String) : Option Nodes :=
  match ns.around with
  | [] => none
  | u :: around => (u.setValue? text).map fun u => { ns with around := u :: around }

end Nodes

/-- The place inside an S-expression, with the characters of the current symbol, the last one
first. -/
inductive SexprStage where
  /-- Between two symbols. -/
  | between
  /-- In the name of a kind. -/
  | name (read : List Char)
  /-- In a text. -/
  | text (read : List Char)
  /-- In a text, after a backslash. -/
  | escaped (read : List Char)

/-- The state of the machine. -/
structure SexprReader where
  stage : SexprStage
  nodes : Nodes

namespace SexprReader

/-- A character between two symbols. -/
def between (ns : Nodes) (c : Char) : Option SexprReader :=
  if c = ' ' then some ⟨.between, ns⟩
  else if c = '(' then some ⟨.name [], ns⟩
  else if c = ')' then ns.close?.map (⟨.between, ·⟩)
  else if c = '\x22' then some ⟨.text [], ns⟩
  else none

/-- Reads a character. -/
def step (r : SexprReader) (c : Char) : Option SexprReader :=
  match r.stage with
  | .between => between r.nodes c
  | .name read =>
    if c = ' ' ∨ c = ')' then
      (Kind.ofName? (String.ofList read.reverse)).bind fun k => between (r.nodes.begin k) c
    else some { r with stage := .name (c :: read) }
  | .text read =>
    if c = '\x22' then (r.nodes.setValue? (String.ofList read.reverse)).map (⟨.between, ·⟩)
    else if c = '\\' then some { r with stage := .escaped read }
    else some { r with stage := .text (c :: read) }
  | .escaped read => some { r with stage := .text (c :: read) }

/-- The tree that has been read, if it is complete and the only one. -/
def tree? (r : SexprReader) : Option (Tree String) :=
  match r with
  | ⟨.between, [], [t]⟩ => some t
  | _ => none

end SexprReader

/-- The tree of an S-expression. -/
def Tree.ofSexpr? (text : String) : Option (Tree String) :=
  (text.toList.foldlM SexprReader.step ⟨.between, {}⟩).bind SexprReader.tree?

/-! ## The machine on what is printed -/

namespace SexprReader

/-- Reads all of the characters. -/
def run (text : List Char) (r : SexprReader) : Option SexprReader := text.foldlM step r

theorem run_cons (c : Char) (text : List Char) (r : SexprReader) :
    run (c :: text) r = (r.step c).bind (run text) :=
  List.foldlM_cons

theorem run_cons_of_step {c : Char} {r : SexprReader} (r' : SexprReader)
    (h : r.step c = some r') (text : List Char) : run (c :: text) r = run text r' := by
  rw [run_cons, h, Option.bind_some]

/-- A name is read up to its end. -/
theorem run_name (cs : List Char) (h : ∀ c ∈ cs, ¬(c = ' ' ∨ c = ')')) (rest read : List Char)
    (ns : Nodes) :
    run (cs ++ rest) ⟨.name read, ns⟩ = run rest ⟨.name (cs.reverse ++ read), ns⟩ := by
  induction cs generalizing read with
  | nil => rfl
  | cons c cs ih =>
    have hc : step ⟨.name read, ns⟩ c = some ⟨.name (c :: read), ns⟩ :=
      if_neg (h c List.mem_cons_self)
    rw [List.cons_append, run_cons_of_step _ hc, ih fun d hd => h d (List.mem_cons_of_mem c hd)]
    simp

/-- Behind the name of a kind the node is open. -/
theorem run_kind (k : Kind) {c : Char} (hc : c = ' ' ∨ c = ')') (rest : List Char) (ns : Nodes) :
    run (k.name.toList ++ c :: rest) ⟨.name [], ns⟩ = run (c :: rest) ⟨.between, ns.begin k⟩ := by
  rw [run_name _ k.not_ends_of_mem_name, List.append_nil, run_cons, run_cons]
  have hk : Kind.ofName? (String.ofList k.name.toList.reverse.reverse) = some k := by
    rw [List.reverse_reverse, String.ofList_toList, Kind.ofName?_name]
  simp only [step, if_pos hc, hk, Option.bind_some]

/-- An escaped text is read as the text. -/
theorem run_escape (cs rest read : List Char) (ns : Nodes) :
    run (Tree.escape cs ++ rest) ⟨.text read, ns⟩ = run rest ⟨.text (cs.reverse ++ read), ns⟩ := by
  induction cs generalizing read with
  | nil => rfl
  | cons c cs ih =>
    have hread : (c :: cs).reverse ++ read = cs.reverse ++ c :: read := by simp
    rw [Tree.escape, hread, ← ih]
    split
    · -- the backslash in front, then the character whatever it is
      rfl
    · next hc =>
      obtain ⟨hbackslash, hquote⟩ := not_or.1 hc
      refine run_cons_of_step _ ?_ _
      simp only [step, if_neg hquote, if_neg hbackslash]

/-- A text between its quotes becomes the value of the innermost node. -/
theorem run_text (text : String) (rest : List Char) (ns : Nodes) :
    run ('\x22' :: (Tree.escape text.toList ++ '\x22' :: rest)) ⟨.between, ns⟩ =
      (ns.setValue? text).bind fun ns => run rest ⟨.between, ns⟩ := by
  rw [run_cons_of_step ⟨.text [], ns⟩ rfl, run_escape, run_cons]
  have hend : step ⟨.text (text.toList.reverse ++ []), ns⟩ '\x22' =
      (ns.setValue? text).map (⟨.between, ·⟩) := by
    simp [step]
  rw [hend, Option.bind_map]
  rfl

/-- The node in front of its text and its parts, as it is read. -/
theorem run_open (k : Kind) {c : Char} (hc : c = ' ' ∨ c = ')') (rest : List Char) (ns : Nodes) :
    run ('(' :: (k.name.toList ++ c :: rest)) ⟨.between, ns⟩ =
      run (c :: rest) ⟨.between, ns.begin k⟩ := by
  rw [run_cons_of_step ⟨.name [], ns⟩ rfl, run_kind k hc]

end SexprReader

namespace Tree

open SexprReader

/-- A row of parts is written behind a blank, or there is only what is written behind it. -/
theorem writeAllOnto_eq_cons (cs : List (Tree String)) (rest : List Char) :
    ∃ c text, (c = ' ' ∨ c = ')') ∧ writeAllOnto (')' :: rest) cs = c :: text := by
  cases cs with
  | nil => exact ⟨')', rest, .inr rfl, rfl⟩
  | cons t ts => exact ⟨' ', _, .inl rfl, rfl⟩

/-- Behind the text of a node the node has its value, and the parts are ahead. -/
theorem run_head (k : Kind) (v : Option String) (cs : List (Tree String)) (rest : List Char)
    (ns : Nodes) :
    run (writeOnto rest (node k v cs)) ⟨.between, ns⟩ =
      run (writeAllOnto (')' :: rest) cs)
        ⟨.between, { ns with around := { kind := k, value := v } :: ns.around }⟩ := by
  cases v with
  | none =>
    obtain ⟨c, text, hc, hparts⟩ := writeAllOnto_eq_cons cs rest
    rw [writeOnto, hparts]
    exact run_open k hc text ns
  | some s =>
    rw [writeOnto, run_open k (.inl rfl),
      run_cons_of_step ⟨.between, ns.begin k⟩ rfl]
    exact run_text s _ _

mutual

/-- What is printed for a tree is read as the tree, whatever stands behind it. -/
theorem run_writeOnto (t : Tree String) (rest : List Char) (ns : Nodes) :
    run (writeOnto rest t) ⟨.between, ns⟩ = run rest ⟨.between, ns.add t⟩ := by
  match t with
  | node k v cs =>
    have hclose : step ⟨.between, ⟨⟨k, v, cs.reverse ++ []⟩ :: ns.around, ns.trees⟩⟩ ')' =
        some ⟨.between, ns.add (node k v cs)⟩ := by
      simp [step, between, Nodes.close?, Unfinished.finish]
    rw [run_head, run_writeAllOnto cs, run_cons_of_step _ hclose]

/-- What is printed for a row of trees is read as parts of the innermost node. -/
theorem run_writeAllOnto (ts : List (Tree String)) (rest : List Char) (u : Unfinished)
    (around : List Unfinished) (trees : List (Tree String)) :
    run (writeAllOnto rest ts) ⟨.between, u :: around, trees⟩ =
      run rest ⟨.between, { u with parts := ts.reverse ++ u.parts } :: around, trees⟩ := by
  match ts with
  | [] => rfl
  | t :: ts =>
    have hparts : (t :: ts).reverse ++ u.parts = ts.reverse ++ t :: u.parts := by simp
    rw [writeAllOnto, run_cons_of_step ⟨.between, u :: around, trees⟩ rfl, run_writeOnto t,
      Nodes.add, run_writeAllOnto ts, hparts]

end

/-- A tree is found back in its S-expression. -/
theorem ofSexpr?_sexpr (t : Tree String) : ofSexpr? t.sexpr = some t := by
  change (run (String.ofList (writeOnto [] t)).toList ⟨.between, {}⟩).bind tree? = some t
  rw [String.toList_ofList, run_writeOnto]
  rfl

example : ofSexpr? "(LT (IDENT \"a\\\"\\\\ ) \") (EMPTY))" =
    some (branch .less [leaf .ident "a\"\\ ) ", empty]) := by
  cbv

section

variable {α β γ : Type} {f : α → γ} {g : β → γ}

theorem optionRel_iff_map_eq {a : Option α} {b : Option β} :
    Option.Rel (fun x y => f x = g y) a b ↔ a.map f = b.map g := by
  cases a <;> cases b <;> simp

mutual

/-- Values correspond by what they stand for if the trees are the same once it stands there. -/
theorem corresponds_iff_map_eq (t : Tree α) (u : Tree β) :
    t.Corresponds (fun a b => f a = g b) u ↔ t.map f = u.map g := by
  match t, u with
  | node k v cs, node k' v' cs' =>
    rw [Corresponds, map, map, node.injEq, optionRel_iff_map_eq, correspondAll_iff_mapAll_eq]

theorem correspondAll_iff_mapAll_eq (ts : List (Tree α)) (us : List (Tree β)) :
    CorrespondAll (fun a b => f a = g b) ts us ↔ mapAll f ts = mapAll g us := by
  match ts, us with
  | [], [] => simp [CorrespondAll, mapAll]
  | [], u :: us => simp [CorrespondAll, mapAll]
  | t :: ts, [] => simp [CorrespondAll, mapAll]
  | t :: ts, u :: us =>
    rw [CorrespondAll, mapAll, mapAll, List.cons.injEq, corresponds_iff_map_eq,
      correspondAll_iff_mapAll_eq]

end

end

/-- The S-expression determines the tree. Two trees with handles to texts are printed alike exactly
if they have the same shape and kinds and values at the same nodes, with the same texts for them in
their tables; and the tree with its texts is read back from what is printed. -/
theorem sexpr_determines_tree (table table' : Interner) (t u : Tree Handle) :
    ((t.map table.lookup).sexpr = (u.map table'.lookup).sexpr ↔
        t.Corresponds (fun a b => table.lookup a = table'.lookup b) u) ∧
      ofSexpr? (t.map table.lookup).sexpr = some (t.map table.lookup) := by
  refine ⟨?_, ofSexpr?_sexpr _⟩
  rw [corresponds_iff_map_eq]
  refine ⟨fun h => ?_, congrArg sexpr⟩
  have hread := congrArg ofSexpr? h
  rw [ofSexpr?_sexpr, ofSexpr?_sexpr] at hread
  exact Option.some.inj hread

end Tree

end Modula
